import Cerco.SpanParser

set_option autoImplicit false

/-!
# What takes spans in pieces does not see where buffers end

A consumer takes the events of a push parser until it comes to a verdict. If it takes the
pieces of a span like the whole span, a text that is cut into buffers gets the verdict that it
gets in one.
-/
namespace Cerco.SpanConsumers
open Cerco.SpanParser

section
variable {σ α κ μ ε S V : Type}

variable (on : S → Event α κ μ ε → Except V S)

def consume : S → List (Event α κ μ ε) → Except V S
  | s, [] => .ok s
  | s, e :: es => (on s e).bind fun t => consume t es

/-- `joins` says behind which part of a span the rest may come as a piece of its own; a verdict on
a part of a span is the verdict on the span. -/
structure Pieces (joins : κ → List α → Prop) (failed : ε → V) : Prop where
  joined : ∀ {k d e}, joins k d → joins k e → joins k (d ++ e)
  fail : ∀ s e, on s (.fail e) = .error (failed e)
  more : ∀ {s t k d}, joins k d → on s (.span k d) = .ok t → ∀ e, on t (.span k e) = on s (.span k (d ++ e))
  stuck : ∀ {s v k d}, on s (.span k d) = .error v → ∀ e, on s (.span k (d ++ e)) = .error v

variable (M : Machine σ α κ μ ε)

def readBuffer (x : σ × S) (bs : List α) : Except V (σ × S) :=
  (consume on x.2 ((M.buffer x.1 bs).1.map Prod.snd)).map ((M.buffer x.1 bs).2.1, ·)

def readBuffers : σ × S → List (List α) → Except V (σ × S)
  | x, [] => .ok x
  | x, bs :: reads => (readBuffer on M x bs).bind fun y => readBuffers y reads

/-- A parse under way: what is held of the open span, and what the consumer took. -/
structure Live (σ α κ S : Type) where
  state : σ
  held : Held α κ
  taken : S

def report : Held α κ × S → Report κ μ ε → Except V (Held α κ × S)
  | (_, s), .enter k => .ok (some (k, []), s)
  | (some (k, d), s), .leave => (on s (.span k d)).map (none, ·)
  | (none, s), .leave => .ok (none, s)
  | (o, s), .mark m => (on s (.mark m)).map (o, ·)
  | (o, s), .fail e => (on s (.fail e)).map (o, ·)

def reports : List (Report κ μ ε) → Held α κ × S → Except V (Held α κ × S)
  | [], x => .ok x
  | r :: rs, x => (report on x r).bind (reports rs)

def byte (l : Live σ α κ S) (b : α) : Except V (Live σ α κ S) :=
  let r := M.step l.state b
  (reports on r.1 (l.held, l.taken)).bind fun x =>
    (reports on r.2.1 (hold x.1 b, x.2)).map fun y => ⟨r.2.2, y.1, y.2⟩

def bytes : Live σ α κ S → List α → Except V (Live σ α κ S)
  | l, [] => .ok l
  | l, b :: bs => (byte on M l b).bind fun m => bytes m bs

def settle (l : Live σ α κ S) : Except V (σ × S) :=
  match l.held with
  | some (k, d) => (on l.taken (.span k d)).map (l.state, ·)
  | none => .ok (l.state, l.taken)

def reopened (st : σ) : Held α κ := (M.opened st).map fun k => (k, [])

variable {on M}

theorem consume_append (s : S) (es fs : List (Event α κ μ ε)) :
    consume on s (es ++ fs) = (consume on s es).bind fun t => consume on t fs := by
  induction es generalizing s with
  | nil => rfl
  | cons e es ih =>
    rw [List.cons_append, consume, consume]
    cases on s e with
    | error v => rfl
    | ok t => exact ih t

theorem bytes_append (l : Live σ α κ S) (as bs : List α) :
    bytes on M l (as ++ bs) = (bytes on M l as).bind fun m => bytes on M m bs := by
  induction as generalizing l with
  | nil => rfl
  | cons a as ih =>
    rw [List.cons_append, bytes, bytes]
    cases byte on M l a with
    | error v => rfl
    | ok m => exact ih m

variable {joins : κ → List α → Prop} {failed : ε → V}

theorem report_fail (pieces : Pieces on joins failed) (x : Held α κ × S) (e : ε) :
    report on x (.fail e) = .error (failed e) := by
  obtain ⟨_ | ⟨k, d⟩, s⟩ := x
  · rw [report, pieces.fail]
    rfl
  · rw [report, pieces.fail]
    rfl

/-- The events of some reports are consumed like the reports; behind a failure there is a verdict. -/
theorem emit_consume (pieces : Pieces on joins failed) (rs : List (Report κ μ ε)) (p : ℕ) (o : Held α κ) (s : S) :
    (consume on s ((emit rs p o).1.map Prod.snd)).map ((emit rs p o).2.1, ·) = reports on rs (o, s) ∧
      ((emit rs p o).2.2 = false → ∃ v, consume on s ((emit rs p o).1.map Prod.snd) = .error v) := by
  induction rs generalizing o s with
  | nil => exact ⟨rfl, fun h => nomatch h⟩
  | cons r rs ih =>
    cases r with
    | enter k => exact ih (some (k, [])) s
    | leave =>
      cases o with
      | none => exact ih none s
      | some x =>
        obtain ⟨k, d⟩ := x
        rw [reports, report, emit, List.map_cons, consume]
        cases on s (.span k d) with
        | error v => exact ⟨rfl, fun _ => ⟨v, rfl⟩⟩
        | ok t => exact ih none t
    | mark m =>
      rw [reports, report, emit, List.map_cons, consume]
      cases on s (.mark m) with
      | error v => exact ⟨rfl, fun _ => ⟨v, rfl⟩⟩
      | ok t => exact ih o t
    | fail e =>
      rw [reports, report, emit, List.map_singleton, consume, pieces.fail]
      exact ⟨rfl, fun _ => ⟨_, rfl⟩⟩

theorem feed_consume (pieces : Pieces on joins failed) (st : σ) (o : Held α κ) (p : ℕ) (bs : List α) (s : S) :
    (consume on s ((M.feed st o p bs).events.map Prod.snd)).map
        (⟨(M.feed st o p bs).state, (M.feed st o p bs).held, ·⟩) = bytes on M ⟨st, o, s⟩ bs ∧
      ((M.feed st o p bs).going = false →
        ∃ v, consume on s ((M.feed st o p bs).events.map Prod.snd) = .error v) := by
  induction bs generalizing st o p s with
  | nil => exact ⟨rfl, fun h => nomatch h⟩
  | cons b bs ih =>
    obtain ⟨before, stopped⟩ := emit_consume pieces (M.step st b).1 p o s
    rw [Machine.feed, bytes, byte]
    dsimp only
    rw [← before]
    split
    · rename_i es o₁ h₁
      rw [h₁] at stopped
      obtain ⟨v, hv⟩ := stopped rfl
      rw [h₁]
      dsimp only at hv ⊢
      rw [hv]
      exact ⟨rfl, fun _ => ⟨v, rfl⟩⟩
    · rename_i es o₁ h₁
      rw [h₁]
      dsimp only
      cases hs : consume on s (es.map Prod.snd) with
      | error v =>
        have dead (fs : List (ℕ × Event α κ μ ε)) : consume on s ((es ++ fs).map Prod.snd) = .error v := by
          rw [List.map_append, consume_append, hs]
          rfl
        split
        · dsimp only
          rw [dead]
          exact ⟨rfl, fun _ => ⟨v, rfl⟩⟩
        · dsimp only
          rw [dead]
          exact ⟨rfl, fun _ => ⟨v, rfl⟩⟩
      | ok s₁ =>
        have onward (fs : List (ℕ × Event α κ μ ε)) :
            consume on s ((es ++ fs).map Prod.snd) = consume on s₁ (fs.map Prod.snd) := by
          rw [List.map_append, consume_append, hs]
          rfl
        obtain ⟨behind, stopped⟩ := emit_consume pieces (M.step st b).2.1 (p + 1) (hold o₁ b) s₁
        change _ = ((reports on (M.step st b).2.1 (hold o₁ b, s₁)).map _).bind _ ∧ _
        rw [← behind]
        split
        · rename_i es₂ o₂ h₂
          rw [h₂] at stopped
          obtain ⟨v, hv⟩ := stopped rfl
          rw [h₂]
          dsimp only at hv ⊢
          rw [onward, hv]
          exact ⟨rfl, fun _ => ⟨v, rfl⟩⟩
        · rename_i es₂ o₂ h₂
          rw [h₂]
          dsimp only
          rw [onward, List.map_append, consume_append]
          cases hs₂ : consume on s₁ (es₂.map Prod.snd) with
          | error v => exact ⟨rfl, fun _ => ⟨v, rfl⟩⟩
          | ok s₂ => exact ih (M.step st b).2.2 o₂ (p + 1) s₂

theorem readBuffer_bytes (pieces : Pieces on joins failed) (st : σ) (s : S) (bs : List α) :
    readBuffer on M (st, s) bs = (bytes on M ⟨st, reopened M st, s⟩ bs).bind (settle on) := by
  obtain ⟨fed, stopped⟩ := feed_consume (M := M) pieces st (reopened M st) 0 bs s
  have start : (M.opened st).map (fun k => (k, ([] : List α))) = reopened M st := rfl
  rw [← fed, readBuffer, Machine.buffer]
  dsimp only
  rw [start]
  cases going : (M.feed st (reopened M st) 0 bs).going with
  | false =>
    obtain ⟨v, hv⟩ := stopped going
    rw [if_neg Bool.false_ne_true, hv]
    rfl
  | true =>
    rw [if_pos rfl, List.map_append, consume_append]
    cases consume on s ((M.feed st (reopened M st) 0 bs).events.map Prod.snd) with
    | error v => rfl
    | ok t =>
      change Except.map _ (consume on t ((flush (M.feed st (reopened M st) 0 bs).held bs.length).map Prod.snd)) =
        settle on ⟨(M.feed st (reopened M st) 0 bs).state, (M.feed st (reopened M st) 0 bs).held, t⟩
      unfold flush settle
      dsimp only
      cases (M.feed st (reopened M st) 0 bs).held with
      | none => rfl
      | some x =>
        obtain ⟨k, d⟩ := x
        rw [List.map_singleton, consume]
        dsimp only
        cases on t (.span k d) <;> rfl

/-- The same is held and taken, or a front of what `x` holds is with what `y` took. -/
def Joint (on : S → Event α κ μ ε → Except V S) (joins : κ → List α → Prop) (x y : Held α κ × S) : Prop :=
  y = x ∨ ∃ k d e, joins k d ∧ x.1 = some (k, d ++ e) ∧ y.1 = some (k, e) ∧ on x.2 (.span k d) = .ok y.2

theorem reports_joint (pieces : Pieces on joins failed) {p q : Option κ} {rs : List (Report κ μ ε)}
    (order : Consecutive p rs q) {x y : Held α κ × S} (joint : Joint on joins x y) (held : x.1.map Prod.fst = p) :
    (∃ v, reports on rs x = .error v ∧ reports on rs y = .error v) ∨
      ∃ x' y', reports on rs x = .ok x' ∧ reports on rs y = .ok y' ∧ Joint on joins x' y' ∧
        x'.1.map Prod.fst = q := by
  induction order generalizing x y with
  | nil o => exact .inr ⟨x, y, rfl, rfl, joint, held⟩
  | enter order ih =>
    rename_i k rs o
    obtain ⟨_ | h, s⟩ := x
    · obtain rfl | ⟨k', d, e, _, hx, _⟩ := joint
      · exact ih (x := (some (k, []), s)) (.inl rfl) rfl
      · cases hx
    · cases held
  | leave order ih =>
    rename_i k rs o
    obtain ⟨_ | ⟨k', d⟩, s⟩ := x
    · cases held
    · obtain rfl : k' = k := Option.some.inj held
      obtain rfl | ⟨k', f, e, join, hx, hy, front⟩ := joint
      · rw [reports, report]
        cases on s (.span k' d) with
        | error v => exact .inl ⟨v, rfl, rfl⟩
        | ok t => exact ih (x := (none, t)) (.inl rfl) rfl
      · obtain ⟨held', t⟩ := y
        cases hx
        cases hy
        rw [reports, report, reports, report, pieces.more join front]
        cases on s (.span k' (f ++ e)) with
        | error v => exact .inl ⟨v, rfl, rfl⟩
        | ok t => exact ih (x := (none, t)) (.inl rfl) rfl
  | mark order ih =>
    rename_i m rs o
    obtain ⟨_ | h, s⟩ := x
    · obtain rfl | ⟨k', d, e, _, hx, _⟩ := joint
      · rw [reports, report]
        cases on s (.mark m) with
        | error v => exact .inl ⟨v, rfl, rfl⟩
        | ok t => exact ih (x := (none, t)) (.inl rfl) rfl
      · cases hx
    · cases held
  | fail =>
    rename_i e p o
    refine .inl ⟨failed e, ?_, ?_⟩ <;> rw [reports, report_fail pieces] <;> rfl

theorem Joint.hold {x y : Held α κ × S} (joint : Joint on joins x y) (b : α) :
    Joint on joins (SpanParser.hold x.1 b, x.2) (SpanParser.hold y.1 b, y.2) := by
  obtain rfl | ⟨k, d, e, join, hx, hy, front⟩ := joint
  · exact .inl rfl
  · rw [hx, hy]
    refine .inr ⟨k, d, e ++ [b], join, ?_, rfl, front⟩
    simp only [SpanParser.hold, Option.map_some, List.append_assoc]

/-- The whole `w` and the pieces `c` are at the same byte. -/
structure Level (on : S → Event α κ μ ε → Except V S) (M : Machine σ α κ μ ε) (joins : κ → List α → Prop)
    (w c : Live σ α κ S) : Prop where
  state : c.state = w.state
  joint : Joint on joins (w.held, w.taken) (c.held, c.taken)
  held : w.held.map Prod.fst = M.opened w.state

theorem hold_kind (o : Held α κ) (b : α) : (hold o b).map Prod.fst = o.map Prod.fst := by
  cases o <;> rfl

theorem Level.byte (pieces : Pieces on joins failed) {w c : Live σ α κ S} (level : Level on M joins w c) (b : α) :
    (∃ v, byte on M w b = .error v ∧ byte on M c b = .error v) ∨
      ∃ w' c', byte on M w b = .ok w' ∧ byte on M c b = .ok c' ∧ Level on M joins w' c' := by
  obtain ⟨o, front, back⟩ := M.consecutive w.state b
  rw [SpanConsumers.byte, SpanConsumers.byte, level.state]
  obtain ⟨v, ew, ec⟩ | ⟨x, y, ew, ec, joint, held⟩ := reports_joint pieces front level.joint level.held
  · rw [ew, ec]
    exact .inl ⟨v, rfl, rfl⟩
  · rw [ew, ec]
    dsimp only [Except.bind]
    obtain ⟨v, ew, ec⟩ | ⟨x', y', ew, ec, joint, held⟩ :=
      reports_joint pieces back (joint.hold b) ((hold_kind x.1 b).trans held)
    · rw [ew, ec]
      exact .inl ⟨v, rfl, rfl⟩
    · rw [ew, ec]
      exact .inr ⟨_, _, rfl, rfl, rfl, joint, held⟩

theorem Level.bytes (pieces : Pieces on joins failed) {w c : Live σ α κ S} (level : Level on M joins w c)
    (bs : List α) :
    (∃ v, bytes on M w bs = .error v ∧ bytes on M c bs = .error v) ∨
      ∃ w' c', bytes on M w bs = .ok w' ∧ bytes on M c bs = .ok c' ∧ Level on M joins w' c' := by
  induction bs generalizing w c with
  | nil => exact .inr ⟨w, c, rfl, rfl, level⟩
  | cons b bs ih =>
    rw [SpanConsumers.bytes, SpanConsumers.bytes]
    obtain ⟨v, ew, ec⟩ | ⟨w', c', ew, ec, level⟩ := level.byte pieces b
    · rw [ew, ec]
      exact .inl ⟨v, rfl, rfl⟩
    · rw [ew, ec]
      exact ih level

theorem Level.settle (pieces : Pieces on joins failed) {w c : Live σ α κ S} (level : Level on M joins w c) :
    settle on c = settle on w := by
  obtain ⟨st, held, s⟩ := w
  obtain ⟨st', held', t⟩ := c
  obtain ⟨rfl, joint, _⟩ := level
  obtain same | ⟨k, d, e, join, hx, hy, front⟩ := joint
  · cases same
    rfl
  · cases hx
    cases hy
    change (on t (.span k e)).map _ = (on s (.span k (d ++ e))).map _
    rw [pieces.more join front]

theorem refused_reports (pieces : Pieces on joins failed) {k : κ} {q : Option κ} {rs : List (Report κ μ ε)}
    (order : Consecutive (some k) rs q) {d : List α} {s : S} {v : V} (refused : on s (.span k d) = .error v) :
    (reports on rs (some (k, d), s) = .ok (some (k, d), s) ∧ q = some k) ∨
      reports on rs (some (k, d), s) = .error v ∨ ∃ e, reports on rs (some (k, d), s) = .error (failed e) := by
  cases order with
  | nil => exact .inl ⟨rfl, rfl⟩
  | leave =>
    rw [reports, report, refused]
    exact .inr (.inl rfl)
  | fail =>
    rename_i e
    rw [reports, report_fail pieces]
    exact .inr (.inr ⟨e, rfl⟩)

theorem refused_bytes (pieces : Pieces on joins failed) (bs : List α) {st : σ} {k : κ} (opened : M.opened st = some k)
    {d : List α} {s : S} {v : V} (refused : on s (.span k d) = .error v) :
    (bytes on M ⟨st, some (k, d), s⟩ bs).bind (settle on) = .error v ∨
      ∃ e, (bytes on M ⟨st, some (k, d), s⟩ bs).bind (settle on) = .error (failed e) := by
  induction bs generalizing st d with
  | nil =>
    left
    change (on s (.span k d)).map _ = _
    rw [refused]
    rfl
  | cons b bs ih =>
    obtain ⟨o, front, back⟩ := M.consecutive st b
    rw [opened] at front
    rw [bytes, byte]
    dsimp only
    obtain ⟨e, rfl⟩ | e | ⟨f, e⟩ := refused_reports pieces front refused
    · rw [e]
      change (Except.bind ((reports on (M.step st b).2.1 (some (k, d ++ [b]), s)).map _) _).bind _ = _ ∨
        ∃ e, (Except.bind ((reports on (M.step st b).2.1 (some (k, d ++ [b]), s)).map _) _).bind _ = _
      have longer := pieces.stuck refused [b]
      obtain ⟨e, opened⟩ | e | ⟨f, e⟩ := refused_reports pieces back longer
      · rw [e]
        exact ih opened longer
      · rw [e]
        exact .inl rfl
      · rw [e]
        exact .inr ⟨f, rfl⟩
    · rw [e]
      exact .inl rfl
    · rw [e]
      exact .inr ⟨f, rfl⟩

/-- If the buffer does not fail, the part of the open span in it may be a piece of its own. -/
def EndsJoined (M : Machine σ α κ μ ε) (joins : κ → List α → Prop) (st : σ) (bs : List α) : Prop :=
  (M.feed st (reopened M st) 0 bs).going = true →
    ∀ k d, (M.feed st (reopened M st) 0 bs).held = some (k, d) → joins k d

def Joined (M : Machine σ α κ μ ε) (joins : κ → List α → Prop) : σ → List (List α) → Prop
  | _, [] => True
  | st, bs :: reads => EndsJoined M joins st bs ∧ Joined M joins (M.buffer st bs).2.1 reads

/-- An element was refused at the end of a buffer, and in one buffer the parser fails inside it. -/
def Overruns (on : S → Event α κ μ ε → Except V S) (failed : ε → V) (cut whole : Except V (σ × S)) : Prop :=
  ∃ s v k d e, on s (.span k d) = .error v ∧ cut = .error v ∧ whole = .error (failed e)

theorem bytes_fed (pieces : Pieces on joins failed) {st : σ} {s : S} {bs : List α} {l : Live σ α κ S}
    (taken : bytes on M ⟨st, reopened M st, s⟩ bs = .ok l) :
    (M.feed st (reopened M st) 0 bs).going = true ∧ (M.feed st (reopened M st) 0 bs).state = l.state ∧
      (M.feed st (reopened M st) 0 bs).held = l.held := by
  obtain ⟨fed, stopped⟩ := feed_consume (M := M) pieces st (reopened M st) 0 bs s
  rw [taken] at fed
  cases hs : consume on s ((M.feed st (reopened M st) 0 bs).events.map Prod.snd) with
  | error v =>
    rw [hs] at fed
    cases fed
  | ok t =>
    rw [hs] at fed stopped
    cases fed
    refine ⟨?_, rfl, rfl⟩
    cases going : (M.feed st (reopened M st) 0 bs).going with
    | true => rfl
    | false =>
      obtain ⟨v, hv⟩ := stopped going
      cases hv

theorem Joint.held_joins (pieces : Pieces on joins failed) {x y : Held α κ × S} (joint : Joint on joins x y)
    (ends : ∀ k d, y.1 = some (k, d) → joins k d) {k : κ} {d : List α} (held : x.1 = some (k, d)) : joins k d := by
  obtain rfl | ⟨k', f, e, join, hx, hy, _⟩ := joint
  · exact ends k d held
  · cases hx.symm.trans held
    exact pieces.joined join (ends _ e hy)

theorem reads_level (pieces : Pieces on joins failed) (reads : List (List α)) {w c : Live σ α κ S}
    (level : Level on M joins w c) (front : c.held = reopened M c.state) (rest : settle on w = .ok (c.state, c.taken))
    (joined : Joined M joins c.state reads) :
    readBuffers on M (c.state, c.taken) reads = (bytes on M w reads.flatten).bind (settle on) ∨
      Overruns on failed (readBuffers on M (c.state, c.taken) reads)
        ((bytes on M w reads.flatten).bind (settle on)) := by
  induction reads generalizing w c with
  | nil => exact .inl rest.symm
  | cons bs reads ih =>
    obtain ⟨st, held, s⟩ := c
    obtain rfl : held = reopened M st := front
    obtain ⟨ends, joined⟩ := joined
    rw [readBuffers, readBuffer_bytes pieces, List.flatten_cons, bytes_append]
    obtain ⟨v, ew, ec⟩ | ⟨w', c', ew, ec, level⟩ := level.bytes pieces bs
    · rw [ew, ec]
      exact .inl rfl
    · obtain ⟨going, state, held⟩ := bytes_fed pieces ec
      have settled := level.settle pieces
      rw [ew, ec]
      change (settle on c').bind _ = (bytes on M w' reads.flatten).bind _ ∨
        Overruns on failed ((settle on c').bind _) ((bytes on M w' reads.flatten).bind _)
      rw [settled]
      cases whole : w'.held with
      | none =>
        have taken : settle on w' = .ok (w'.state, w'.taken) := by
          rw [settle, whole]
        have closed : reopened M w'.state = none := by
          have kind := level.held
          rw [whole] at kind
          rw [reopened, ← kind]
          rfl
        rw [taken]
        refine ih (c := ⟨w'.state, reopened M w'.state, w'.taken⟩) ⟨rfl, .inl ?_, level.held⟩ rfl taken ?_
        · rw [closed, whole]
        · rw [← level.state, ← state]
          exact joined
      | some h =>
        obtain ⟨k, d⟩ := h
        have opened : M.opened w'.state = some k := by
          rw [← level.held, whole]
          rfl
        have handed : settle on w' = (on w'.taken (.span k d)).map (w'.state, ·) := by
          rw [settle, whole]
        have join : joins k d := level.joint.held_joins pieces (fun k e he => ends going k e (held.trans he)) whole
        cases verdict : on w'.taken (.span k d) with
        | error v =>
          rw [handed, verdict]
          obtain ⟨st', _, s'⟩ := w'
          cases whole
          obtain e | ⟨f, e⟩ := refused_bytes pieces reads.flatten opened verdict
          · rw [e]
            exact .inl rfl
          · rw [e]
            exact .inr ⟨s', v, k, d, f, verdict, rfl, rfl⟩
        | ok t =>
          have taken : settle on w' = .ok (w'.state, t) := by
            rw [handed, verdict]
            rfl
          rw [taken]
          refine ih (c := ⟨w'.state, reopened M w'.state, t⟩) ⟨rfl, .inr ⟨k, d, [], join, ?_, ?_, verdict⟩, level.held⟩
            rfl taken ?_
          · rw [List.append_nil]
            exact whole
          · rw [reopened, opened]
            rfl
          · rw [← level.state, ← state]
            exact joined

/-- A text that comes in buffers which end where a span may be cut gets the verdict that it gets in one, or it
is refused for an element that the parser does not take to its end. -/
theorem cut_whole (pieces : Pieces on joins failed) (s : S) {reads : List (List α)}
    (joined : Joined M joins M.start reads) :
    readBuffers on M (M.start, s) reads = readBuffer on M (M.start, s) reads.flatten ∨
      Overruns on failed (readBuffers on M (M.start, s) reads) (readBuffer on M (M.start, s) reads.flatten) := by
  have closed : reopened M M.start = none := by
    rw [reopened, M.opened_start]
    rfl
  rw [readBuffer_bytes pieces]
  refine reads_level pieces reads (c := ⟨M.start, reopened M M.start, s⟩) ⟨rfl, .inl rfl, ?_⟩ rfl ?_ joined
  · rw [closed, M.opened_start]
    rfl
  · rw [settle, closed]

theorem readBuffers_append (x : σ × S) (as bs : List (List α)) :
    readBuffers on M x (as ++ bs) = (readBuffers on M x as).bind fun y => readBuffers on M y bs := by
  induction as generalizing x with
  | nil => rfl
  | cons a as ih =>
    rw [List.cons_append, readBuffers, readBuffers]
    cases readBuffer on M x a with
    | error v => rfl
    | ok y => exact ih y

theorem joined_append {st : σ} {s : S} {y : σ × S} {reads : List (List α)} {bs : List α}
    (taken : readBuffers on M (st, s) reads = .ok y) (joined : Joined M joins st reads)
    (ends : EndsJoined M joins y.1 bs) : Joined M joins st (reads ++ [bs]) := by
  induction reads generalizing st s with
  | nil =>
    cases taken
    exact ⟨ends, trivial⟩
  | cons first reads ih =>
    obtain ⟨here, later⟩ := joined
    rw [readBuffers, readBuffer] at taken
    cases hs : consume on s ((M.buffer st first).1.map Prod.snd) with
    | error v =>
      rw [hs] at taken
      cases taken
    | ok t =>
      rw [hs] at taken
      exact ⟨here, ih taken later⟩

variable (on M)

/-- The buffers of the texts that got a verdict, each with it, and those of the text that is open. -/
structure Talk (σ α S V : Type) where
  answered : List (List (List α) × V)
  reads : List (List α)
  state : σ
  taken : S

def Talk.add (fresh : S) (t : Talk σ α S V) (bs : List α) : Talk σ α S V :=
  match readBuffer on M (t.state, t.taken) bs with
  | .error v => ⟨t.answered ++ [(t.reads ++ [bs], v)], [], M.start, fresh⟩
  | .ok y => ⟨t.answered, t.reads ++ [bs], y.1, y.2⟩

def silence (fresh : S) : Talk σ α S V := ⟨[], [], M.start, fresh⟩

def talk (fresh : S) (buffers : List (List α)) : Talk σ α S V := buffers.foldl (Talk.add on M fresh) (silence M fresh)

variable {on M}

theorem talk_concat (fresh : S) (buffers : List (List α)) (bs : List α) :
    talk on M fresh (buffers ++ [bs]) = (talk on M fresh buffers).add on M fresh bs :=
  List.foldl_concat _ _ _ _

theorem add_ok (fresh : S) (t : Talk σ α S V) {bs : List α} {s : S}
    (taken : consume on t.taken ((M.buffer t.state bs).1.map Prod.snd) = .ok s) :
    t.add on M fresh bs = ⟨t.answered, t.reads ++ [bs], (M.buffer t.state bs).2.1, s⟩ := by
  rw [Talk.add, readBuffer, taken]
  rfl

theorem add_error (fresh : S) (t : Talk σ α S V) {bs : List α} {v : V}
    (verdict : consume on t.taken ((M.buffer t.state bs).1.map Prod.snd) = .error v) :
    t.add on M fresh bs = ⟨t.answered ++ [(t.reads ++ [bs], v)], [], M.start, fresh⟩ := by
  rw [Talk.add, readBuffer, verdict]
  rfl

theorem add_buffers (fresh : S) (t : Talk σ α S V) (bs : List α) :
    (t.add on M fresh bs).answered.flatMap Prod.fst ++ (t.add on M fresh bs).reads =
      t.answered.flatMap Prod.fst ++ t.reads ++ [bs] := by
  rw [Talk.add]
  split
  · dsimp only
    rw [List.flatMap_append, List.flatMap_singleton, List.append_nil, ← List.append_assoc]
  · dsimp only
    rw [← List.append_assoc]

theorem talk_buffers (fresh : S) (buffers : List (List α)) :
    (talk on M fresh buffers).answered.flatMap Prod.fst ++ (talk on M fresh buffers).reads = buffers := by
  have folded (t : Talk σ α S V) : (buffers.foldl (Talk.add on M fresh) t).answered.flatMap Prod.fst ++
      (buffers.foldl (Talk.add on M fresh) t).reads = t.answered.flatMap Prod.fst ++ t.reads ++ buffers := by
    induction buffers generalizing t with
    | nil => exact (List.append_nil _).symm
    | cons bs buffers ih => rw [List.foldl_cons, ih, add_buffers, List.append_assoc, List.singleton_append]
  exact folded (silence M fresh)

/-- What is known of the texts of a talk. -/
structure Sound (on : S → Event α κ μ ε → Except V S) (M : Machine σ α κ μ ε) (joins : κ → List α → Prop)
    (fresh : S) (t : Talk σ α S V) : Prop where
  answered : ∀ p ∈ t.answered, readBuffers on M (M.start, fresh) p.1 = .error p.2 ∧ Joined M joins M.start p.1
  taken : readBuffers on M (M.start, fresh) t.reads = .ok (t.state, t.taken)
  joined : Joined M joins M.start t.reads

theorem silence_sound (fresh : S) : Sound on M joins fresh (silence M fresh : Talk σ α S V) :=
  ⟨fun _ h => (nomatch h), rfl, trivial⟩

theorem Sound.add {fresh : S} {t : Talk σ α S V} (sound : Sound on M joins fresh t) {bs : List α}
    (ends : EndsJoined M joins t.state bs) : Sound on M joins fresh (t.add on M fresh bs) := by
  have joined := joined_append sound.taken sound.joined ends
  have read : readBuffers on M (M.start, fresh) (t.reads ++ [bs]) = readBuffer on M (t.state, t.taken) bs := by
    rw [readBuffers_append, sound.taken]
    change (readBuffer on M (t.state, t.taken) bs).bind _ = _
    cases readBuffer on M (t.state, t.taken) bs <;> rfl
  unfold Talk.add
  split
  · rename_i v hv
    refine ⟨fun p hp => ?_, rfl, trivial⟩
    obtain old | new := List.mem_append.mp hp
    · exact sound.answered p old
    · obtain rfl := List.mem_singleton.mp new
      exact ⟨read.trans hv, joined⟩
  · rename_i y hy
    exact ⟨sound.answered, read.trans hy, joined⟩

/-- Every text of a talk got the verdict that it gets alone and in one buffer, or was refused for an element
that the parser does not take to its end. -/
theorem Sound.alone (pieces : Pieces on joins failed) {fresh : S} {t : Talk σ α S V} (sound : Sound on M joins fresh t)
    {p : List (List α) × V} (mem : p ∈ t.answered) :
    readBuffer on M (M.start, fresh) p.1.flatten = .error p.2 ∨
      Overruns on failed (.error p.2) (readBuffer on M (M.start, fresh) p.1.flatten) := by
  obtain ⟨verdict, joined⟩ := sound.answered p mem
  have := cut_whole pieces fresh joined
  rw [verdict] at this
  exact this.imp_left Eq.symm

/-- A text that got a verdict gets it with more bytes behind it, if the parser takes the element that was refused
to its end. -/
theorem verdict_longer (pieces : Pieces on joins failed) {st : σ} {s : S} {as : List α} {v : V}
    (verdict : readBuffer on M (st, s) as = .error v) (bs : List α) :
    readBuffer on M (st, s) (as ++ bs) = .error v ∨
      Overruns on failed (.error v) (readBuffer on M (st, s) (as ++ bs)) := by
  have level : Level on M joins ⟨st, reopened M st, s⟩ ⟨st, reopened M st, s⟩ := by
    refine ⟨rfl, .inl rfl, ?_⟩
    rw [reopened]
    cases M.opened st <;> rfl
  rw [readBuffer_bytes pieces] at verdict
  rw [readBuffer_bytes pieces, bytes_append]
  obtain ⟨w, e, _⟩ | ⟨l, _, e, _, after⟩ := level.bytes pieces as
  · rw [e] at verdict ⊢
    exact .inl verdict
  · rw [e] at verdict ⊢
    obtain ⟨st', o, s'⟩ := l
    change settle on _ = _ at verdict
    change (bytes on M _ bs).bind _ = _ ∨ Overruns on failed _ ((bytes on M _ bs).bind _)
    cases o with
    | none => cases verdict
    | some x =>
      obtain ⟨k, d⟩ := x
      have refused : on s' (.span k d) = .error v := by
        rw [settle] at verdict
        dsimp only at verdict
        cases h : on s' (.span k d) with
        | error w =>
          rw [h] at verdict
          cases verdict
          rfl
        | ok t =>
          rw [h] at verdict
          cases verdict
      obtain e | ⟨f, e⟩ := refused_bytes pieces bs after.held.symm refused
      · exact .inl e
      · exact .inr ⟨s', v, k, d, f, refused, rfl, e⟩

theorem feed_front (st : σ) (o : Held α κ) (p : ℕ) (as bs : List α) :
    (M.feed st o p as).events <+: (M.feed st o p (as ++ bs)).events := by
  induction as generalizing st o p with
  | nil => exact List.nil_prefix
  | cons a as ih =>
    rw [List.cons_append, Machine.feed, Machine.feed]
    dsimp only
    split
    · exact List.prefix_rfl
    · split
      · exact List.prefix_rfl
      · dsimp only
        rw [List.prefix_append_right_inj, List.prefix_append_right_inj]
        exact ih _ _ _

theorem run_front (st : σ) (as bs : List α) : (M.run st as).1 <+: (M.run st (as ++ bs)).1 := by
  rw [← M.feed_run st none 0, ← M.feed_run st none 0]
  exact (feed_front st none 0 as bs).filterMap _

theorem buffer_fed (st : σ) (bs : List α) : (M.feed st (reopened M st) 0 bs).events <+: (M.buffer st bs).1 := by
  unfold Machine.buffer
  dsimp only
  split
  · exact List.prefix_append _ _
  · exact List.prefix_rfl

theorem buffer_mark {st : σ} {as : List α} {m : μ} (h : m ∈ (M.run st as).1) (bs : List α) :
    ∃ q ≤ as.length, (q, .mark m) ∈ (M.buffer st (as ++ bs)).1 := by
  rw [← M.feed_run st (reopened M st) 0] at h
  obtain ⟨⟨q, ev⟩, mem, same⟩ := List.mem_filterMap.mp h
  have place := M.feed_pos st (reopened M st) 0 as _ mem
  rw [Nat.zero_add] at place
  refine ⟨q, place, ?_⟩
  have reported := (buffer_fed st (as ++ bs)).mem ((feed_front st (reopened M st) 0 as bs).mem mem)
  cases ev with
  | mark m' =>
    cases same
    exact reported
  | span k d => cases same
  | fail e => cases same

theorem taken_going (pieces : Pieces on joins failed) {st : σ} {s t : S} {bs : List α}
    (taken : consume on s ((M.buffer st bs).1.map Prod.snd) = .ok t) : (M.buffer st bs).2.2 = true := by
  by_contra stops
  obtain ⟨q, e, he⟩ := M.buffer_fail st bs (Bool.eq_false_iff.mpr stops)
  obtain ⟨front, back, split⟩ := List.append_of_mem (List.mem_map_of_mem (f := Prod.snd) he)
  rw [split, consume_append] at taken
  cases hs : consume on s front with
  | error v =>
    rw [hs] at taken
    cases taken
  | ok u =>
    rw [hs] at taken
    change (on u (.fail e)).bind _ = _ at taken
    rw [pieces.fail] at taken
    cases taken

/-- What holds of the marks so far and of the consumer is kept while there is no verdict. -/
theorem reads_run (pieces : Pieces on joins failed) {P : List μ → S → Prop}
    (keeps : ∀ ms s t (es : List (ℕ × Event α κ μ ε)), P ms s → consume on s (es.map Prod.snd) = .ok t →
      P (ms ++ eventMarks es) t) (front : List α) {reads : List (List α)} {x y : σ × S} {ms : List μ}
    (run : M.run M.start front = (ms, x.1, true)) (holds : P ms x.2) (taken : readBuffers on M x reads = .ok y) :
    ∃ ms', M.run M.start (front ++ reads.flatten) = (ms', y.1, true) ∧ P ms' y.2 := by
  induction reads generalizing front x ms with
  | nil =>
    cases taken
    exact ⟨ms, by rw [List.flatten_nil, List.append_nil, run], holds⟩
  | cons bs reads ih =>
    obtain ⟨st, s⟩ := x
    rw [readBuffers, readBuffer] at taken
    cases hs : consume on s ((M.buffer st bs).1.map Prod.snd) with
    | error v =>
      rw [hs] at taken
      cases taken
    | ok u =>
      rw [hs] at taken
      have going := taken_going pieces hs
      have onward := M.run_append run bs
      rw [← M.buffer_run st] at onward
      have state : (M.buffer st bs).2 = ((M.buffer st bs).2.1, true) := Prod.ext rfl going
      rw [state] at onward
      obtain ⟨ms', whole, holds⟩ := ih (x := ((M.buffer st bs).2.1, u)) _ onward (keeps _ _ _ _ holds hs) taken
      exact ⟨ms', by rw [List.flatten_cons, ← List.append_assoc, whole], holds⟩

theorem emit_mark {rs : List (Report κ μ ε)} {p q : ℕ} {o : Held α κ} {m : μ} (h : (q, .mark m) ∈ (emit rs p o).1) :
    .mark m ∈ rs := by
  induction rs generalizing o with
  | nil => cases h
  | cons r rs ih =>
    cases r with
    | enter k => exact List.mem_cons_of_mem _ (ih h)
    | leave =>
      cases o with
      | none => exact List.mem_cons_of_mem _ (ih h)
      | some x =>
        obtain same | later := List.mem_cons.mp h
        · cases same
        · exact List.mem_cons_of_mem _ (ih later)
    | mark m' =>
      obtain same | later := List.mem_cons.mp h
      · cases same
        exact List.mem_cons_self
      · exact List.mem_cons_of_mem _ (ih later)
    | fail e =>
      obtain same := List.mem_singleton.mp h
      cases same

theorem feed_last {st : σ} {o : Held α κ} {p : ℕ} {bs : List α} {m : μ} (going : (M.feed st o p bs).going = true)
    (some_ : bs ≠ []) (h : (p + bs.length, .mark m) ∈ (M.feed st o p bs).events) :
    ∃ s b, .mark m ∈ (M.step s b).2.1 ∧ (M.feed st o p bs).state = (M.step s b).2.2 := by
  induction bs generalizing st o p with
  | nil => exact absurd rfl some_
  | cons b bs ih =>
    have front := emit_pos (α := α) (M.step st b).1 p o
    rw [Machine.feed] at h going ⊢
    split at h
    · rename_i es o₁ h₁
      rw [h₁] at going
      cases going
    · rename_i es o₁ h₁
      rw [h₁] at going front
      dsimp only at going front
      have back := emit_pos (M.step st b).2.1 (p + 1) (hold o₁ b)
      have mark {q : ℕ} : (q, .mark m) ∈ (emit (M.step st b).2.1 (p + 1) (hold o₁ b)).1 → _ := emit_mark
      split at h
      · rename_i es₂ o₂ h₂
        rw [h₂] at going
        cases going
      · rename_i es₂ o₂ h₂
        rw [h₂] at going back mark
        dsimp only at going back mark
        rw [List.length_cons] at h
        obtain early | h := List.mem_append.mp h
        · have := front _ early
          dsimp only at this
          omega
        · obtain here | later := List.mem_append.mp h
          · have last := back _ here
            dsimp only at last
            obtain rfl : bs = [] := List.length_eq_zero_iff.mp (by omega)
            exact ⟨st, b, mark here, rfl⟩
          · refine ih going ?_ ?_
            · rintro rfl
              cases later
            · rw [Nat.add_assoc, Nat.add_comm 1]
              exact later

theorem buffer_last {st : σ} {bs : List α} {m : μ} (going : (M.buffer st bs).2.2 = true) (some_ : bs ≠ [])
    (h : (bs.length, .mark m) ∈ (M.buffer st bs).1) :
    ∃ s b, .mark m ∈ (M.step s b).2.1 ∧ (M.buffer st bs).2.1 = (M.step s b).2.2 := by
  have going : (M.feed st (reopened M st) 0 bs).going = true := going
  refine feed_last (o := reopened M st) (p := 0) going some_ ?_
  unfold Machine.buffer at h
  dsimp only at h
  change _ ∈ if (M.feed st (reopened M st) 0 bs).going = true then _ else _ at h
  rw [if_pos going] at h
  rw [Nat.zero_add]
  obtain fed | flushed := List.mem_append.mp h
  · exact fed
  · unfold flush at flushed
    split at flushed
    · cases List.mem_singleton.mp flushed
    · cases flushed

end
end Cerco.SpanConsumers
