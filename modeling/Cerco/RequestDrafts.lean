import Cerco.HttpCallbacks
import Cerco.SpanConsumers
import Cerco.TargetPath

set_option autoImplicit false

/-!
# Requests as they are read

A draft is the request as far as it was read, without the memory that it lies in. It takes a span
in pieces like the whole span, except the name of a header.
-/
namespace Cerco.RequestDrafts
open Cerco.CString Cerco.Request Cerco.Connection Cerco.SpanParser Cerco.SpanConsumers Cerco.TargetPath

variable {σ : Type}

/-- `method` is there once the parser reported it; `name` and `value` are the pair that is staged. -/
structure Draft where
  opened : Bool
  method : Option Bytes
  url : Bytes
  name : Bytes
  value : Bytes
  headers : List (Bytes × Bytes)
  body : Option Bytes
deriving DecidableEq

def blank : Draft := ⟨false, none, [], [], [], [], none⟩

/-- What comes of a request: a code, or the object that `conn_request_dispatch` gets. A message ends
out of turn when the parser did not report its beginning or its method. -/
inductive Ruling
  | rejected (code : ℕ)
  | dispatched (method target path query : Option Bytes) (headers : List (Bytes × Bytes)) (body : Option Bytes)
  | outOfTurn
deriving DecidableEq

def dispatchedReq (r : Req) : Ruling := .dispatched r.method r.target r.path r.query r.headers r.body

def Draft.finish (d : Draft) : Except Ruling Draft :=
  if d.opened = false ∨ d.name = [] then .ok d
  else if maxHeaders ≤ d.headers.length ∨ maxName < d.name.length ∨ maxValue < d.value.length ∨
      maxHeaderBytes < d.name.length + d.value.length + d.headers.length * 2 then .error (.rejected 431)
  else .ok { d with headers := d.headers ++ [(d.name, d.value)], name := [], value := [] }

def Draft.onField (d : Draft) (s : Bytes) : Except Ruling Draft :=
  (if d.name ≠ [] ∨ d.value ≠ [] then d.finish else .ok d).bind fun d =>
    if maxName < d.name.length + s.length then .error (.rejected 431) else .ok { d with name := d.name ++ s }

def Draft.onBody (maxBody : ℕ) (d : Draft) (s : Bytes) : Except Ruling Draft :=
  if d.opened = false then .ok d
  else if maxBody < (d.body.getD []).length + s.length then .error (.rejected 413)
  else .ok { d with body := some (d.body.getD [] ++ s) }

def Draft.onHead (maxBody : ℕ) (d : Draft) (contentLength : ℕ) (chunked : Bool) : Except Ruling Draft :=
  d.finish.bind fun d =>
    if d.opened = false then .error (.rejected 400)
    else if 0 < contentLength ∧ maxBody < contentLength then .error (.rejected 413)
    else .ok { d with body := if 0 < contentLength ∨ chunked = true then some (d.body.getD []) else d.body }

def decodeTarget (t : Bytes) : Except ℕ (Bytes × Bytes) :=
  if maxUrl < (decodedPart t).length then .error 414
  else
    match urlDecode false (decodedPart t).length (decodedPart t) with
    | none => .error 400
    | some path =>
      match queryText t with
      | some q =>
        match urlDecode true q.length q with
        | none => .error 400
        | some query => .ok (path, query)
      | none => .ok (path, [])

def Draft.target (d : Draft) : Bytes := if d.url ≠ [] then d.url else [slash]

def Draft.complete (d : Draft) (method : Bytes) : Ruling :=
  match decodeTarget (cstr d.target) with
  | .error code => .rejected code
  | .ok (path, query) =>
    .dispatched (some (cstr method)) (some d.target) (some path) (some query) d.headers d.body

def Draft.on (maxBody : ℕ) (d : Draft) : HttpEvent → Except Ruling Draft
  | .span .url s =>
    if maxUrl < d.url.length + s.length then .error (.rejected 414) else .ok { d with url := d.url ++ s }
  | .span .field s => d.onField s
  | .span .value s =>
    if maxValue < d.value.length + s.length then .error (.rejected 431) else .ok { d with value := d.value ++ s }
  | .span .body s => d.onBody maxBody s
  | .mark .messageBegin => .ok (if d.opened then d else { d with opened := true, headers := [], body := none })
  | .mark (.method m) => .ok { d with method := some m }
  | .mark (.headersComplete n chunked) => d.onHead maxBody n chunked
  | .mark (.messageComplete _) =>
    match d.opened, d.method with
    | true, some method => .error (d.complete method)
    | _, _ => .error .outOfTurn
  | .fail _ => .error (.rejected 400)

def joins (k : Elem) (d : Bytes) : Prop := k = .field → d = []

instance (k : Elem) (d : Bytes) : Decidable (joins k d) := inferInstanceAs (Decidable (_ → _))

section Pieces
variable {d t : Draft} {maxBody : ℕ}

theorem finish_again (h : d.finish = .ok t) :
    (if t.name ≠ [] ∨ t.value ≠ [] then t.finish else .ok t) = .ok t := by
  unfold Draft.finish at h
  split at h
  · rename_i quiet
    cases h
    rw [Draft.finish, if_pos quiet, ite_self]
  · split at h
    · cases h
    · cases h
      exact if_neg (by simp)

theorem onField_more (h : d.onField [] = .ok t) (e : Bytes) : t.onField e = d.onField e := by
  unfold Draft.onField at h ⊢
  cases hd : (if d.name ≠ [] ∨ d.value ≠ [] then d.finish else .ok d) with
  | error v =>
    rw [hd] at h
    cases h
  | ok u =>
    have again : (if u.name ≠ [] ∨ u.value ≠ [] then u.finish else .ok u) = .ok u := by
      split at hd
      · exact finish_again hd
      · rename_i none_
        cases hd
        exact if_neg none_
    rw [hd] at h
    change (if _ then _ else _) = _ at h
    split at h
    · cases h
    · cases h
      have same : { u with name := u.name ++ [] } = u := by rw [List.append_nil]
      rw [same, again]

theorem onField_stuck {v : Ruling} {s : Bytes} (h : d.onField s = .error v) (e : Bytes) :
    d.onField (s ++ e) = .error v := by
  unfold Draft.onField at h ⊢
  cases hd : (if d.name ≠ [] ∨ d.value ≠ [] then d.finish else .ok d) with
  | error w =>
    rw [hd] at h
    exact h
  | ok u =>
    rw [hd] at h
    change (if _ then _ else _) = _ at h
    change (if _ then _ else _) = _
    split at h
    · rename_i long
      rw [if_pos (by rw [List.length_append]; omega)]
      exact h
    · cases h

theorem draft_pieces (maxBody : ℕ) : Pieces (Draft.on maxBody) joins fun _ => .rejected 400 where
  joined hd he field := by
    rw [hd field, he field]
    rfl
  fail _ _ := rfl
  more {s t k d} join h e := by
    cases k with
    | url =>
      simp only [Draft.on] at h ⊢
      split at h
      · cases h
      · cases h
        simp only [List.length_append, List.append_assoc, Nat.add_assoc]
    | field =>
      obtain rfl := join rfl
      exact onField_more h e
    | value =>
      simp only [Draft.on] at h ⊢
      split at h
      · cases h
      · cases h
        simp only [List.length_append, List.append_assoc, Nat.add_assoc]
    | body =>
      simp only [Draft.on, Draft.onBody] at h ⊢
      split at h
      · rename_i closed
        cases h
        rw [if_pos closed, if_pos closed]
      · split at h
        · cases h
        · rename_i opened _
          cases h
          rw [if_neg opened, if_neg opened]
          simp only [Option.getD_some, List.length_append, List.append_assoc, Nat.add_assoc]
  stuck {s v k d} h e := by
    cases k with
    | url =>
      simp only [Draft.on] at h ⊢
      split at h
      · rw [if_pos (by rw [List.length_append]; omega)]
        exact h
      · cases h
    | field => exact onField_stuck h e
    | value =>
      simp only [Draft.on] at h ⊢
      split at h
      · rw [if_pos (by rw [List.length_append]; omega)]
        exact h
      · cases h
    | body =>
      simp only [Draft.on, Draft.onBody] at h ⊢
      split at h
      · cases h
      · rename_i opened
        rw [if_neg opened]
        split at h
        · rw [if_pos (by rw [List.length_append]; omega)]
          exact h
        · cases h

end Pieces

/-- What llhttp promises of its callbacks: a message that is complete has begun and has a method, and the
next one is parsed from the start. -/
structure Orderly (M : Llhttp σ) : Prop where
  turn : ∀ bs ms keepAlive rest, (M.run M.start bs).1 = ms ++ .messageComplete keepAlive :: rest →
    .messageBegin ∈ ms ∧ ∃ m, .method m ∈ ms
  restarts : ∀ s b, .mark (.messageComplete true) ∈ (M.step s b).2.1 → (M.step s b).2.2 = M.start

structure Marked (ms : List Mark) (d : Draft) : Prop where
  opened : .messageBegin ∈ ms → d.opened = true
  method : (∃ m, .method m ∈ ms) → d.method ≠ none
  unended : ∀ keepAlive, .messageComplete keepAlive ∉ ms

theorem blank_marked : Marked [] blank :=
  ⟨fun h => absurd h List.not_mem_nil, fun ⟨_, h⟩ => absurd h List.not_mem_nil, fun _ => List.not_mem_nil⟩

section Turns
variable {d t : Draft} {maxBody : ℕ} {ms : List Mark} {M : Llhttp σ}

theorem finish_keeps (h : d.finish = .ok t) : (t.opened, t.method) = (d.opened, d.method) := by
  unfold Draft.finish at h
  split at h
  · cases h
    rfl
  · split at h
    · cases h
    · cases h
      rfl

theorem on_marked {ev : ℕ × HttpEvent} (h : d.on maxBody ev.2 = .ok t) (marked : Marked ms d) :
    Marked (ms ++ eventMarks [ev]) t := by
  have stays (same : (t.opened, t.method) = (d.opened, d.method)) : Marked ms t := by
    simp only [Prod.mk.injEq] at same
    exact ⟨fun begun => same.1.trans (marked.opened begun), fun named => same.2 ▸ marked.method named,
      marked.unended⟩
  obtain ⟨pos, ev⟩ := ev
  dsimp only at h
  cases ev with
  | span k s =>
    refine (List.append_nil ms).symm ▸ stays ?_
    cases k with
    | url =>
      simp only [Draft.on] at h
      split at h
      · cases h
      · cases h
        rfl
    | field =>
      simp only [Draft.on, Draft.onField] at h
      cases hd : (if d.name ≠ [] ∨ d.value ≠ [] then d.finish else .ok d) with
      | error v =>
        rw [hd] at h
        cases h
      | ok u =>
        have kept : (u.opened, u.method) = (d.opened, d.method) := by
          split at hd
          · exact finish_keeps hd
          · cases hd
            rfl
        rw [hd] at h
        change (if _ then _ else _) = _ at h
        split at h
        · cases h
        · cases h
          exact kept
    | value =>
      simp only [Draft.on] at h
      split at h
      · cases h
      · cases h
        rfl
    | body =>
      simp only [Draft.on, Draft.onBody] at h
      split at h
      · cases h
        rfl
      · split at h
        · cases h
        · cases h
          rfl
  | mark m =>
    cases m with
    | messageBegin =>
      cases h
      refine ⟨fun _ => ?_, fun ⟨m, hm⟩ => ?_, fun keepAlive h => ?_⟩
      · split <;> [assumption; rfl]
      · have named : d.method ≠ none := marked.method ⟨m, by simpa [eventMarks] using hm⟩
        split <;> exact named
      · exact marked.unended keepAlive (by simpa [eventMarks] using h)
    | method m =>
      cases h
      exact ⟨fun begun => marked.opened (by simpa [eventMarks] using begun), fun _ => Option.some_ne_none m,
        fun keepAlive h => marked.unended keepAlive (by simpa [eventMarks] using h)⟩
    | headersComplete n chunked =>
      have kept : (t.opened, t.method) = (d.opened, d.method) := by
        simp only [Draft.on, Draft.onHead] at h
        cases hd : d.finish with
        | error v =>
          rw [hd] at h
          cases h
        | ok u =>
          rw [hd] at h
          change (if _ then _ else if _ then _ else _) = _ at h
          split at h
          · cases h
          · split at h
            · cases h
            · have moved := finish_keeps hd
              cases h
              exact moved
      have marked := stays kept
      exact ⟨fun begun => marked.opened (by simpa [eventMarks] using begun),
        fun ⟨m, hm⟩ => marked.method ⟨m, by simpa [eventMarks] using hm⟩,
        fun keepAlive h => marked.unended keepAlive (by simpa [eventMarks] using h)⟩
    | messageComplete keepAlive =>
      simp only [Draft.on] at h
      split at h <;> cases h
  | fail e => cases h

theorem on_outOfTurn {ev : HttpEvent} (h : d.on maxBody ev = .error .outOfTurn) :
    (∃ keepAlive, ev = .mark (.messageComplete keepAlive)) ∧ (d.opened = true → d.method = none) := by
  have finishes : d.finish ≠ .error .outOfTurn := by
    intro same
    unfold Draft.finish at same
    split at same
    · cases same
    · split at same <;> cases same
  cases ev with
  | span k s =>
    cases k with
    | url =>
      simp only [Draft.on] at h
      split at h <;> cases h
    | field =>
      simp only [Draft.on, Draft.onField] at h
      cases hd : (if d.name ≠ [] ∨ d.value ≠ [] then d.finish else .ok d) with
      | error v =>
        rw [hd] at h
        cases h
        split at hd
        · exact absurd hd finishes
        · cases hd
      | ok u =>
        rw [hd] at h
        change (if _ then _ else _) = _ at h
        split at h <;> cases h
    | value =>
      simp only [Draft.on] at h
      split at h <;> cases h
    | body =>
      simp only [Draft.on, Draft.onBody] at h
      split at h
      · cases h
      · split at h <;> cases h
  | mark m =>
    cases m with
    | messageBegin => cases h
    | method m => cases h
    | headersComplete n chunked =>
      simp only [Draft.on, Draft.onHead] at h
      cases hd : d.finish with
      | error v =>
        rw [hd] at h
        cases h
        exact absurd hd finishes
      | ok u =>
        rw [hd] at h
        change (if _ then _ else if _ then _ else _) = _ at h
        split at h
        · cases h
        · split at h <;> cases h
    | messageComplete keepAlive =>
      refine ⟨⟨keepAlive, rfl⟩, fun opened => ?_⟩
      simp only [Draft.on] at h
      split at h
      · rename_i method _ _
        unfold Draft.complete at h
        split at h <;> cases h
      · rename_i unnamed
        cases method : d.method with
        | none => rfl
        | some m => exact (unnamed m opened method).elim
  | fail e => cases h

theorem consume_marked {es : List (ℕ × HttpEvent)} (h : consume (Draft.on maxBody) d (es.map Prod.snd) = .ok t)
    (marked : Marked ms d) : Marked (ms ++ eventMarks es) t := by
  induction es generalizing d ms with
  | nil =>
    cases h
    exact (List.append_nil ms).symm ▸ marked
  | cons ev es ih =>
    rw [List.map_cons, consume] at h
    cases hd : d.on maxBody ev.2 with
    | error v =>
      rw [hd] at h
      cases h
    | ok u =>
      rw [hd] at h
      have rest := ih h (on_marked hd marked)
      rwa [List.append_assoc, ← eventMarks_append] at rest

theorem consume_outOfTurn {es : List (ℕ × HttpEvent)}
    (h : consume (Draft.on maxBody) d (es.map Prod.snd) = .error .outOfTurn) (marked : Marked ms d) :
    ∃ front keepAlive rest, ms ++ eventMarks es = front ++ .messageComplete keepAlive :: rest ∧
      ¬ (.messageBegin ∈ front ∧ ∃ m, .method m ∈ front) := by
  induction es generalizing d ms with
  | nil => cases h
  | cons ev es ih =>
    rw [List.map_cons, consume] at h
    cases hd : d.on maxBody ev.2 with
    | error v =>
      rw [hd] at h
      cases h
      obtain ⟨⟨keepAlive, completes⟩, unnamed⟩ := on_outOfTurn hd
      obtain ⟨pos, ev⟩ := ev
      obtain rfl : ev = _ := completes
      exact ⟨ms, keepAlive, eventMarks es, rfl, fun both =>
        marked.method both.2 (unnamed (marked.opened both.1))⟩
    | ok u =>
      rw [hd] at h
      have rest := ih h (on_marked hd marked)
      rwa [List.append_assoc, ← eventMarks_append] at rest

theorem reads_turn {t : Talk σ UInt8 Draft Ruling} (sound : Sound (Draft.on maxBody) M joins blank t) :
    ∃ ms, M.run M.start t.reads.flatten = (ms, t.state, true) ∧ Marked ms t.taken :=
  reads_run (draft_pieces maxBody) (P := Marked) (fun _ _ _ _ marked taken => consume_marked taken marked) [] rfl
    blank_marked sound.taken

theorem talk_turn (orderly : Orderly M) {t : Talk σ UInt8 Draft Ruling}
    (sound : Sound (Draft.on maxBody) M joins blank t) (bs : Bytes) :
    consume (Draft.on maxBody) t.taken ((M.buffer t.state bs).1.map Prod.snd) ≠ .error .outOfTurn := by
  intro early
  obtain ⟨ms, run, marked⟩ := reads_turn sound
  obtain ⟨front, keepAlive, rest, split, bad⟩ := consume_outOfTurn early marked
  have onward := M.run_append run bs
  rw [← M.buffer_run t.state] at onward
  exact bad (orderly.turn (t.reads.flatten ++ bs) front keepAlive rest (by
    rw [onward]
    exact split))

/-- A text ends with the byte that completes its first message. -/
structure Framed (M : Llhttp σ) (text : Bytes) : Prop where
  complete : ∃ keepAlive, .messageComplete keepAlive ∈ (M.run M.start text).1
  first : ∀ front back, text = front ++ back → back ≠ [] →
    ∀ keepAlive, .messageComplete keepAlive ∉ (M.run M.start front).1

theorem Framed.same {a b : Bytes} (ha : Framed M a) (hb : Framed M b) (front : a <+: b) : a = b := by
  obtain ⟨back, rfl⟩ := front
  obtain ⟨keepAlive, done⟩ := ha.complete
  by_contra more
  refine hb.first a back rfl ?_ keepAlive done
  rintro rfl
  exact more (List.append_nil a).symm

/-- So is what was read until a message is completed behind the last byte of a buffer, and nowhere else. -/
theorem talk_framed {t : Talk σ UInt8 Draft Ruling} (sound : Sound (Draft.on maxBody) M joins blank t) {bs : Bytes}
    {keepAlive : Bool} (done : (bs.length, .mark (.messageComplete keepAlive)) ∈ (M.buffer t.state bs).1)
    (last : ∀ q ka, (q, .mark (.messageComplete ka)) ∈ (M.buffer t.state bs).1 → q = bs.length) :
    Framed M (t.reads.flatten ++ bs) := by
  obtain ⟨ms, run, marked⟩ := reads_turn sound
  have whole := M.run_append run bs
  refine ⟨⟨keepAlive, ?_⟩, fun front back split some_ ka early => ?_⟩
  · rw [whole, ← M.buffer_run t.state]
    exact List.mem_append_right _ (List.mem_filterMap.mpr ⟨_, done, rfl⟩)
  · obtain ⟨c, rfl, rfl⟩ | ⟨c, e, rfl⟩ := List.append_eq_append_iff.mp split
    · rw [M.run_append run c] at early
      obtain early | later := List.mem_append.mp early
      · exact marked.unended ka early
      · obtain ⟨q, place, mem⟩ := buffer_mark later back
        have := last q ka mem
        have := List.length_pos_iff.mpr some_
        rw [List.length_append] at *
        omega
    · have mem := (run_front (M := M) M.start front c).mem early
      rw [← e, run] at mem
      exact marked.unended ka mem

end Turns

end Cerco.RequestDrafts
