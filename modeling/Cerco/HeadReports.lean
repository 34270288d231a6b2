import Cerco.HeaderLimits

set_option autoImplicit false

/-!
# Heads as they are reported

A run is watched with the head that the parser has reported so far on each connection. Where a
piece takes it over a limit, the callback fails with 431 if the connection knows all of the head.
-/
namespace Cerco.HeadReports
open Cerco.Alloc Cerco.CString Cerco.Request Cerco.Response Cerco.Connection Cerco.Dispatch Cerco.HttpCallbacks
open Cerco.Server Cerco.WorkerPool Cerco.TransitionRuns Cerco.SpanParser Cerco.ArenaUse Cerco.ConnFrames
open Cerco.ServerRules Cerco.CloseFlags Cerco.Callbacks Cerco.ConnMoves Cerco.DispatchOutcome
open Cerco.HeaderFrames Cerco.HeaderLimits Cerco.RequestGrammar

variable {σ : Type}

/-- The pairs of a head and the one that is open. Names and values come in pieces; the next pair
begins with a name behind a value. -/
structure Head where
  pairs : List (Bytes × Bytes)
  name : Bytes
  value : Bytes
  inValue : Bool
deriving DecidableEq

def noHead : Head := ⟨[], [], [], false⟩

def Head.close (d : Head) : Head :=
  ⟨if d.name = [] then d.pairs else d.pairs ++ [(d.name, d.value)], [], [], false⟩

def Head.add (d : Head) : HttpEvent → Head
  | .mark .messageBegin => noHead
  | .span .field s =>
    let d := if d.inValue then d.close else d
    { d with name := d.name ++ s }
  | .span .value s => { d with value := d.value ++ s, inValue := true }
  | .mark (.headersComplete _ _) => d.close
  | _ => d

/-- The bytes of the names and values. -/
def Head.bytes (d : Head) : ℕ := headerBytes d.pairs + d.name.length + d.value.length

/-- The head is over a limit; a pair counts once it is closed. -/
def Head.Exceeds (d : Head) : Prop :=
  ¬ Within d.pairs ∨ maxName < d.name.length ∨ maxValue < d.value.length ∨ maxHeaderBytes < d.bytes

instance (d : Head) : Decidable d.Exceeds := inferInstanceAs (Decidable (_ ∨ _))

structure Taken (d : Head) (c : Conn σ) : Prop where
  pairs : ∃ k ∈ c.req, d.pairs.length ≤ (c.objs k).headers.length
  name : d.name = [] ∨ c.stage.fSb ≠ []
  value : d.value.length ≤ c.stage.vSb.length
  bytes : d.bytes ≤ load c

instance (d : Head) (c : Conn σ) : Decidable (Taken d c) :=
  decidable_of_iff ((∃ k ∈ c.req, d.pairs.length ≤ (c.objs k).headers.length) ∧ (d.name = [] ∨ c.stage.fSb ≠ []) ∧
    d.value.length ≤ c.stage.vSb.length ∧ d.bytes ≤ load c)
    ⟨fun h => ⟨h.1, h.2.1, h.2.2.1, h.2.2.2⟩, fun h => ⟨h.pairs, h.name, h.value, h.bytes⟩⟩

def resumesName (d : Head) : HttpEvent → Bool
  | .span .field _ => !d.inValue && !d.name.isEmpty
  | _ => false

section Heads
variable {env : Env σ} {d : Head} {c : Conn σ} {x : Ctx σ}

theorem fits_of_not_exceeds (fits : ¬ d.Exceeds) : Within d.pairs ∧ d.name.length ≤ maxName ∧
    d.value.length ≤ maxValue ∧ d.bytes ≤ maxHeaderBytes := by
  unfold Head.Exceeds at fits
  simp only [not_or, not_not, Nat.not_lt] at fits
  exact fits

theorem noHead_fits : ¬ noHead.Exceeds := by
  rintro (bad | long | long | long)
  · exact bad ⟨Nat.zero_le _, fun _ h => (nomatch h), Nat.zero_le _⟩
  · cases long
  · cases long
  · cases long

theorem Head.close_bytes (d : Head) : d.close.bytes ≤ d.bytes := by
  unfold Head.close Head.bytes
  dsimp only
  split
  · exact (Nat.le_add_right _ _).trans (Nat.le_add_right _ _)
  · rw [headerBytes_append, headerBytes_single, List.length_nil]
    omega

theorem Head.close_full (fits : ¬ d.Exceeds) (bad : ¬ Within d.close.pairs) :
    d.name ≠ [] ∧ maxHeaders ≤ d.pairs.length := by
  obtain ⟨within, name, value, bytes⟩ := fits_of_not_exceeds fits
  unfold Head.close at bad
  dsimp only at bad
  split at bad
  · exact absurd within bad
  · rename_i named
    refine ⟨named, Nat.le_of_not_lt fun few => bad ⟨?_, fun h hh => ?_, ?_⟩⟩
    · rw [List.length_append]
      exact few
    · obtain old | new := List.mem_append.mp hh
      · exact within.pairs h old
      · rw [List.mem_singleton.mp new]
        exact ⟨name, value⟩
    · rw [headerBytes_append, headerBytes_single, ← Nat.add_assoc]
      exact bytes

theorem reqFinishHeaders_code (c : Conn σ) : (reqFinishHeaders c).stage.badRequest = c.stage.badRequest ∨
    (reqFinishHeaders c).stage.badRequest = 431 := by
  obtain ⟨_, e⟩ | ⟨_, e⟩ | ⟨k, _, _, _, _, a, e | e⟩ := reqFinishHeaders_cases c <;> rw [e]
  · exact .inl rfl
  · exact .inr rfl
  · exact .inl rfl
  · exact .inl rfl

theorem reqFinishHeaders_full {k : ℕ} (hk : c.req = some k) (staged : c.stage.fSb ≠ [])
    (full : maxHeaders ≤ (c.objs k).headers.length) : (reqFinishHeaders c).stage.badRequest = 431 := by
  obtain ⟨none, _⟩ | ⟨_, e⟩ | ⟨j, hj, few, _⟩ := reqFinishHeaders_cases c
  · obtain none | none := none
    · exact absurd none staged
    · rw [hk] at none
      cases none
  · rw [e]
  · rw [hk] at hj
    cases hj
    exact absurd full (Nat.not_le_of_lt few)

def Refuses (env : Env σ) (x : Ctx σ) (ev : HttpEvent) : Prop :=
  (onEvent env x ev).2 = false ∧ (onEvent env x ev).1.c.stage.badRequest = 431

theorem onHeaderField_refuses (clean : c.stage.badRequest = 0) {s : Bytes} (long : maxName < s.length ∨
    c.stage.fSb ≠ [] ∧ (reqFinishHeaders c).stage.badRequest = 431) :
    (onHeaderField c s).2 = false ∧ (onHeaderField c s).1.stage.badRequest = 431 := by
  have code : (if c.stage.fSb ≠ [] ∨ c.stage.vSb ≠ [] then reqFinishHeaders c else c).stage.badRequest = 0 ∨
      (if c.stage.fSb ≠ [] ∨ c.stage.vSb ≠ [] then reqFinishHeaders c else c).stage.badRequest = 431 := by
    split
    · rw [← clean]
      exact reqFinishHeaders_code c
    · exact .inl clean
  have full (h : c.stage.fSb ≠ [] ∧ (reqFinishHeaders c).stage.badRequest = 431) :
      (if c.stage.fSb ≠ [] ∨ c.stage.vSb ≠ [] then reqFinishHeaders c else c).stage.badRequest = 431 := by
    rw [if_pos (.inl h.1)]
    exact h.2
  unfold onHeaderField
  rw [if_neg (not_not.mpr clean)]
  dsimp only
  generalize (if c.stage.fSb ≠ [] ∨ c.stage.vSb ≠ [] then reqFinishHeaders c else c) = d at code full
  split
  · rename_i bad
    exact ⟨rfl, code.resolve_left bad⟩
  · rename_i fine
    have fine : d.stage.badRequest = 0 := not_not.mp fine
    obtain long | taken := long
    · rw [if_pos (Nat.lt_add_left _ long)]
      exact ⟨rfl, rfl⟩
    · rw [full taken] at fine
      cases fine

theorem onHeaderValue_refuses (clean : c.stage.badRequest = 0) {s : Bytes}
    (long : maxValue < c.stage.vSb.length + s.length) :
    (onHeaderValue c s).2 = false ∧ (onHeaderValue c s).1.stage.badRequest = 431 := by
  unfold onHeaderValue
  rw [if_neg (not_not.mpr clean), if_pos long]
  exact ⟨rfl, rfl⟩

theorem onHeadersComplete_refuses (clean : x.c.stage.badRequest = 0)
    (full : (reqFinishHeaders x.c).stage.badRequest = 431) (env : Env σ) (n : ℕ) (chunked : Bool) :
    (onHeadersComplete env x n chunked).2 = false ∧
      (onHeadersComplete env x n chunked).1.c.stage.badRequest = 431 := by
  have bad : (reqFinishHeaders x.c).stage.badRequest ≠ 0 := by
    rw [full]
    decide
  unfold onHeadersComplete
  rw [if_neg (not_not.mpr clean)]
  dsimp only
  rw [if_pos bad]
  exact ⟨rfl, full⟩

/-- A piece that takes a head over a limit fails, if the connection has all of the head and the piece
does not go on with a name. -/
theorem passing_refused {ev : HttpEvent} (clean : x.c.stage.badRequest = 0) (taken : Taken d x.c)
    (whole : resumesName d ev = false) (room : roomFor x.c ev) (fits : ¬ d.Exceeds) (beyond : (d.add ev).Exceeds) :
    Refuses env x ev := by
  obtain ⟨within, name, value, _⟩ := fits_of_not_exceeds fits
  obtain ⟨k, hk, many⟩ := taken.pairs
  have full (bad : ¬ Within d.close.pairs) :
      x.c.stage.fSb ≠ [] ∧ (reqFinishHeaders x.c).stage.badRequest = 431 := by
    obtain ⟨named, full⟩ := Head.close_full fits bad
    have staged := taken.name.resolve_left named
    exact ⟨staged, reqFinishHeaders_full hk staged (full.trans many)⟩
  cases ev with
  | span e s =>
    cases e with
    | url => exact absurd beyond fits
    | body => exact absurd beyond fits
    | value =>
      refine onHeaderValue_refuses clean ?_
      obtain bad | long | long | long := beyond
      · exact absurd within bad
      · exact absurd name (Nat.not_le_of_lt long)
      · have long : maxValue < (d.value ++ s).length := long
        have staged := taken.value
        rw [List.length_append] at long
        omega
      · have long : maxHeaderBytes < headerBytes d.pairs + d.name.length + (d.value ++ s).length := long
        have held := taken.bytes
        have room : load x.c + s.length ≤ maxHeaderBytes := room
        rw [List.length_append] at long
        unfold Head.bytes at held
        omega
    | field =>
      refine onHeaderField_refuses clean ?_
      have added : d.add (.span .field s) = { (if d.inValue then d.close else d) with
          name := (if d.inValue then d.close else d).name ++ s } := rfl
      have few : (if d.inValue then d.close else d).bytes ≤ d.bytes := by
        split
        · exact d.close_bytes
        · exact Nat.le_refl _
      have bare : (if d.inValue then d.close else d).name = [] := by
        split
        · rfl
        · rename_i before
          by_contra named
          have resumed : (!d.inValue && !d.name.isEmpty) = false := whole
          simp [Bool.eq_false_iff.mpr before, named] at resumed
      have short : (if d.inValue then d.close else d).value.length ≤ maxValue := by
        split
        · exact Nat.zero_le _
        · exact value
      have list (bad : ¬ Within (if d.inValue then d.close else d).pairs) :
          x.c.stage.fSb ≠ [] ∧ (reqFinishHeaders x.c).stage.badRequest = 431 := by
        split at bad
        · exact full bad
        · exact absurd within bad
      rw [added] at beyond
      generalize (if d.inValue then d.close else d) = e at beyond few bare short list
      obtain bad | long | long | long := beyond
      · exact .inr (list bad)
      · have long : maxName < (e.name ++ s).length := long
        rw [bare] at long
        exact .inl long
      · exact absurd short (Nat.not_le_of_lt long)
      · have long : maxHeaderBytes < headerBytes e.pairs + (e.name ++ s).length + e.value.length := long
        have held := taken.bytes
        have room : load x.c + s.length ≤ maxHeaderBytes := room
        rw [List.length_append] at long
        unfold Head.bytes at few held
        omega
  | mark m =>
    cases m with
    | messageBegin => exact absurd beyond noHead_fits
    | method name => exact absurd beyond fits
    | messageComplete keepAlive => exact absurd beyond fits
    | headersComplete n chunked =>
      refine onHeadersComplete_refuses clean ?_ env n chunked
      obtain bad | long | long | long := beyond
      · exact (full bad).2
      · cases long
      · cases long
      · have long : maxHeaderBytes < d.close.bytes := long
        have less := d.close_bytes
        have fits := (fits_of_not_exceeds fits).2.2.2
        omega
  | fail e => exact absurd beyond fits

end Heads

def tooLarge : WriteCtx := ⟨.simple, .reply (simpleReply 431 none (ascii "header fields too large\n") true)⟩

/-- The request was answered 431; the connection closes where the answer cannot be written. -/
def Refused (c : Conn σ) : Prop := .rejected 431 ∈ c.trace ∧ (c.closing = true ∨ .wrote tooLarge ∈ c.trace)

instance (c : Conn σ) : Decidable (Refused c) := inferInstanceAs (Decidable (_ ∧ _))

section Reads
variable {env : Env σ} {c d : Conn σ} {x y : Ctx σ}

theorem Refused.follows (h : Refused c) (later : Follows c d) : Refused d :=
  ⟨later.trace.subset h.1, h.2.imp later.closing (later.trace.subset ·)⟩

theorem rejectRequest_refused (hl : Linked x.c) (env : Env σ) :
    Refused (rejectRequest env x 431 (ascii "header fields too large\n")).c := by
  let z : Ctx σ := { x with c := { x.c with forceClose := true, trace := x.c.trace ++ [.rejected 431] } }
  have linked : Linked z.c := hl.of_eq rfl
  have noted : .rejected 431 ∈ z.c.trace := List.mem_append_right _ List.mem_cons_self
  change Refused (connSendSimple env z 431 none (ascii "header fields too large\n") true).c
  refine ⟨(connSendSimple_kept linked env 431 none _ true).trace.subset noted, ?_⟩
  obtain e | ⟨srv, st, res, rfl, e⟩ := connSendSimple_cases env z 431 none (ascii "header fields too large\n") true
  · rw [e]
    exact .inl (connCloseAndFree_closes (countWrite_kept linked).linked)
  · rw [e]
    unfold uvWrite
    split
    · exact .inr (List.mem_append_right _ List.mem_cons_self)
    · exact .inl (connCloseAndFree_closes (linked.of_eq rfl))

theorem runEvents_refuses {evs : List (ℕ × HttpEvent)} {p : Ctx σ × HttpEvent} (hp : p ∈ calls env evs x)
    (refuses : Refuses env p.1 p.2) : ∃ y, runEvents env evs x = (y, false) ∧ y.c.stage.badRequest = 431 := by
  induction evs generalizing x with
  | nil => cases hp
  | cons ev rest ih =>
    obtain ⟨pos, ev⟩ := ev
    rw [calls] at hp
    rw [runEvents_cons]
    obtain rfl | later := List.mem_cons.mp hp
    · rw [if_neg (Bool.eq_false_iff.mp refuses.1)]
      exact ⟨_, rfl, refuses.2⟩
    · split at later
      · rename_i good
        rw [if_pos good]
        exact ih later
      · cases later

theorem readFrom_refused (hl : Linked x.c) (parses : (x.c.statusSent || decide (x.c.phase = .drain)) = false)
    {p : Ctx σ × HttpEvent} (hp : p ∈ callsOf env x) (refuses : Refuses env p.1 p.2) :
    Refused (readFrom env x).c := by
  have linked := (llhttpExecute_housed hl env x.c.buf.mem).linked
  unfold callsOf at hp
  split at hp
  · rename_i good
    obtain ⟨y, hy, code⟩ := runEvents_refuses hp refuses
    obtain ⟨err, stopped, _⟩ := runEvents_false hy
    have ran : llhttpExecute env x x.c.buf.mem = (.bad err, y) := by
      obtain ⟨bad, _⟩ | ⟨_, z, hz, _⟩ | ⟨_, z, hz, e⟩ := llhttpExecute_cases env x x.c.buf.mem
      · exact absurd good bad
      · rw [hy] at hz
        cases hz
      · rw [hy] at hz
        cases hz
        rw [e, stopped]
    rw [ran] at linked
    unfold readFrom
    rw [parses, if_neg Bool.false_ne_true]
    dsimp only
    rw [ran]
    dsimp only
    have kept : (setConsumed y x.c.buf.mem (errorOffset y.c)).c.stage.badRequest = 431 := code
    rw [kept, if_pos (by decide)]
    exact rejectRequest_refused (setConsumed_housed linked _ _).linked env
  · cases hp

end Reads

def headCalls : Head → List (Ctx σ × HttpEvent) → List (Head × Ctx σ × HttpEvent)
  | _, [] => []
  | d, p :: rest => (d, p) :: headCalls (d.add p.2) rest

def headAfter (d : Head) (ps : List (Ctx σ × HttpEvent)) : Head := ps.foldl (fun d p => d.add p.2) d

def headsAfter (env : Env σ) (s : Srv σ) (a : Step) (heads : ℕ → Head) : ℕ → Head :=
  match parsing env s a with
  | some x => Function.update heads x.id (headAfter (heads x.id) (callsOf env x))
  | none => heads

/-- The server with the heads that were reported on its connections. -/
def headed (env : Env σ) : System (Srv σ × (ℕ → Head)) Step where
  start p := p = (srvStart env, fun _ => noHead)
  step p a := (srvStep env p.1 a).map fun t => (t, headsAfter env p.1 a p.2)

def isRead : Step → Bool
  | .read _ _ => true
  | _ => false

/-- The piece comes with a read and goes on with no name; no code is set, and the connection has all of
the head so far. -/
def Heard (a : Step) (q : Head × Ctx σ × HttpEvent) : Prop :=
  isRead a = true ∧ q.2.1.c.stage.badRequest = 0 ∧ Taken q.1 q.2.1.c ∧ resumesName q.1 q.2.2 = false

instance (a : Step) (q : Head × Ctx σ × HttpEvent) : Decidable (Heard a q) :=
  inferInstanceAs (Decidable (_ ∧ _ ∧ _ ∧ _))

/-- There is room for what comes, and where a piece takes a head over a limit it is heard. -/
def Checked (env : Env σ) (p : Srv σ × (ℕ → Head)) (a : Step) : Prop :=
  Roomy env p.1 a ∧ ∀ x ∈ (parsing env p.1 a).toList, ∀ q ∈ headCalls (p.2 x.id) (callsOf env x),
    ¬ q.1.Exceeds → (q.1.add q.2.2).Exceeds → Heard a q

instance (env : Env σ) (p : Srv σ × (ℕ → Head)) (a : Step) : Decidable (Checked env p a) :=
  inferInstanceAs (Decidable (Roomy env p.1 a ∧ ∀ x ∈ (parsing env p.1 a).toList,
    ∀ q ∈ headCalls (p.2 x.id) (callsOf env x), ¬ q.1.Exceeds → (q.1.add q.2.2).Exceeds → Heard a q))

section Runs
variable {env : Env σ} {s t : Srv σ} {heads : ℕ → Head} {a : Step} {i : ℕ} {x : Ctx σ}

theorem mem_headCalls {d : Head} {ps : List (Ctx σ × HttpEvent)} {q : Head × Ctx σ × HttpEvent}
    (hq : q ∈ headCalls d ps) : q.2 ∈ ps := by
  induction ps generalizing d with
  | nil => cases hq
  | cons p rest ih =>
    obtain rfl | later := List.mem_cons.mp hq
    · exact List.mem_cons_self
    · exact List.mem_cons_of_mem _ (ih later)

theorem headAfter_exceeds {d : Head} {ps : List (Ctx σ × HttpEvent)} (beyond : (headAfter d ps).Exceeds) :
    d.Exceeds ∨ ∃ q ∈ headCalls d ps, ¬ q.1.Exceeds ∧ (q.1.add q.2.2).Exceeds := by
  induction ps generalizing d with
  | nil => exact .inl beyond
  | cons p rest ih =>
    obtain before | ⟨q, hq, passes⟩ := ih beyond
    · by_cases already : d.Exceeds
      · exact .inl already
      · exact .inr ⟨_, List.mem_cons_self, already, before⟩
    · exact .inr ⟨q, List.mem_cons_of_mem _ hq, passes⟩

theorem parsing_id (hx : parsing env s a = some x) (ht : srvStep env s a = some t) : x.id < s.nextConn := by
  unfold srvStep at ht
  split at ht
  · cases ht
  · cases a with
    | read i data =>
      obtain ⟨born, room, z, hz, _⟩ := readStep_cases ht
      rw [parsing_read data hz] at hx
      split at hx
      · cases hx
      · cases hx
        have made : (connAllocCb env (s.enter i)).2.id = i := by
          unfold connAllocCb
          split <;> rfl
        rw [hz] at made
        exact lt_of_eq_of_lt made born
    | written i ok =>
      obtain ⟨born, ⟨kind, out⟩, rest, hw, _⟩ := writtenStep_cases ht
      cases ok with
      | false => cases hx
      | true =>
        cases kind with
        | response k =>
          rw [parsing_response env hw] at hx
          split at hx
          · cases hx
          · split at hx
            · cases hx
              exact born
            · cases hx
        | simple => simp [parsing, hw] at hx
        | sse => simp [parsing, hw] at hx
    | accept => cases hx
    | readEnd i => cases hx
    | closed i => cases hx
    | sweep => cases hx
    | reload => cases hx
    | tick ms => cases hx
    | take w => cases hx
    | finish w calls => cases hx
    | drain => cases hx
    | shutdown => cases hx

structure Watched (p : Srv σ × (ℕ → Head)) : Prop where
  limited : ∀ i, Limited (p.1.conns i)
  refused : ∀ i, (p.2 i).Exceeds → Refused (p.1.conns i)
  unborn : ∀ i, p.1.nextConn ≤ i → p.2 i = noHead

theorem headsAfter_other (h : ∀ x, parsing env s a = some x → i ≠ x.id) : headsAfter env s a heads i = heads i := by
  unfold headsAfter
  cases hx : parsing env s a with
  | none => rfl
  | some x => exact Function.update_of_ne (h x hx) _ _

theorem passing_answered (linked : ∀ i, Linked (s.conns i)) (checked : Checked env (s, heads) a)
    (ht : srvStep env s a = some t) (hx : parsing env s a = some x) {q : Head × Ctx σ × HttpEvent}
    (hq : q ∈ headCalls (heads x.id) (callsOf env x)) (fits : ¬ q.1.Exceeds) (beyond : (q.1.add q.2.2).Exceeds) :
    Refused (t.conns x.id) := by
  obtain ⟨roomy, heard⟩ := checked
  have parsed : x ∈ (parsing env s a).toList := Option.mem_toList.mpr hx
  have called := mem_headCalls hq
  have room : roomFor q.2.1.c q.2.2 := roomy _ (List.mem_flatMap.mpr ⟨x, parsed, called⟩)
  obtain ⟨read, clean, taken, whole⟩ := heard x parsed q hq fits beyond
  have refuses : Refuses env q.2.1 q.2.2 := passing_refused clean taken whole room fits beyond
  cases a with
  | read i data =>
    unfold srvStep at ht
    split at ht
    · cases ht
    · obtain ⟨_, room, z, hz, rfl⟩ := readStep_cases ht
      have buffered := connAllocCb_housed (x := s.enter i) (linked i) env
      rw [hz] at buffered
      rw [parsing_read data hz] at hx
      split at hx
      · cases hx
      · rename_i parses
        cases hx
        have own : (received z data).id = (s.enter i).id := buffered.id
        have answered := readFrom_refused (received_housed buffered.linked data).linked
          (Bool.eq_false_iff.mpr parses) called refuses
        rw [(read_stays (linked i) hz).done_conns, if_pos own]
        exact answered
  | _ => cases read

theorem accept_limited (env : Env σ) (s : Srv σ) (limited : ∀ i, Limited (s.conns i)) (i : ℕ) :
    Limited ((cercoConnectionCb env s).conns i) := by
  by_cases other : i ≠ s.nextConn
  · rw [cercoConnectionCb_others env s other]
    exact limited i
  · obtain rfl := not_not.mp other
    have fresh : Linked (accepted env s).c := freshConn_linked env s.nextConn s.now
    have bare := freshConn_limited env s.nextConn s.now
    unfold cercoConnectionCb
    split
    · exact limited _
    · dsimp only
      split
      · have own : s.nextConn = (accepted env s).id := rfl
        rw [(connSendSimple_kept fresh env 503 none (ascii "server busy\n") true).toStays.done_conns, if_pos own]
        exact carried_limited (connSendSimple_carried env (accepted env s) 503 none _ true) bare
      · have made : (Ctx.done { accepted env s with c := readStart (accepted env s).c }).conns s.nextConn =
            readStart (freshConn env s.nextConn s.now) := Function.update_self _ _ _
        rw [made]
        exact carried_limited (c := freshConn env s.nextConn s.now) (.of_eq rfl) bare

theorem accept_watched (known : Watched (s, heads)) (ht : srvStep env s .accept = some t) :
    Watched (t, headsAfter env s .accept heads) := by
  unfold srvStep at ht
  split at ht
  · cases ht
  · cases ht
    have quiet : headsAfter env s .accept heads = heads := rfl
    rw [quiet]
    refine ⟨accept_limited env s known.limited, fun i beyond => ?_, fun i new => known.unborn i ?_⟩
    · have other : i ≠ s.nextConn := by
        rintro rfl
        have beyond : (heads s.nextConn).Exceeds := beyond
        have bare : heads s.nextConn = noHead := known.unborn _ (Nat.le_refl _)
        rw [bare] at beyond
        exact noHead_fits beyond
      change Refused ((cercoConnectionCb env s).conns i)
      rw [cercoConnectionCb_others env s other]
      exact known.refused i beyond
    · exact (cercoConnectionCb_next env s).trans new

theorem step_watched (linked : ∀ i, Linked (s.conns i)) (known : Watched (s, heads))
    (checked : Checked env (s, heads) a) (ht : srvStep env s a = some t) : Watched (t, headsAfter env s a heads) := by
  by_cases accepts : a = .accept
  · subst accepts
    exact accept_watched known ht
  by_cases timed : ∃ ms, a = .tick ms
  · obtain ⟨ms, rfl⟩ := timed
    obtain rfl := tick_only ht
    exact ⟨known.limited, known.refused, known.unborn⟩
  have moves := (moves_follow env).step linked checked.1 ht accepts fun ms tick => timed ⟨ms, tick⟩
  refine ⟨fun i => (moves.each i).limited (known.limited i), fun i beyond => ?_, fun i new => ?_⟩
  · have stays (before : (heads i).Exceeds) : Refused (t.conns i) := (known.refused i before).follows (moves.each i)
    by_cases own : ∃ x, parsing env s a = some x ∧ i = x.id
    · obtain ⟨x, hx, rfl⟩ := own
      have after : headsAfter env s a heads x.id = headAfter (heads x.id) (callsOf env x) := by
        unfold headsAfter
        rw [hx]
        exact Function.update_self _ _ _
      have beyond : (headsAfter env s a heads x.id).Exceeds := beyond
      rw [after] at beyond
      obtain before | ⟨q, hq, fits, passes⟩ := headAfter_exceeds beyond
      · exact stays before
      · exact passing_answered linked checked ht hx hq fits passes
    · have beyond : (headsAfter env s a heads i).Exceeds := beyond
      rw [headsAfter_other fun x hx e => own ⟨x, hx, e⟩] at beyond
      exact stays beyond
  · have new : s.nextConn ≤ i := moves.next ▸ new
    have same : headsAfter env s a heads i = heads i := headsAfter_other fun x hx e =>
      absurd (parsing_id hx ht) (Nat.not_lt_of_le (e ▸ new))
    exact same.trans (known.unborn i new)

theorem headed_reach {p : Srv σ × (ℕ → Head)} (h : Reach (headed env) anyStep p) : Reach (server env) anyStep p.1 := by
  induction h with
  | start h0 => exact h0 ▸ .start rfl
  | step _ _ hs ih =>
    obtain ⟨t, ht, rfl⟩ := Option.map_eq_some_iff.mp hs
    exact .step ih trivial ht

/-- In runs in which no connection takes more header bytes than one request may have, and in which a piece
that passes another limit is heard, requests are dispatched within the limits and a head that exceeds
one is answered 431. -/
theorem headers_limited {p : Srv σ × (ℕ → Head)} (h : Reach (headed env) (Checked env) p) (i : ℕ) :
    (∀ k r, .dispatched k r ∈ (p.1.conns i).trace → Within r.headers) ∧
      ((p.2 i).Exceeds → Refused (p.1.conns i)) := by
  have watched : Watched p := by
    refine h.invariant_with (J := fun p => ∀ i, Linked (p.1.conns i)) (fun p hp => ?_) (fun p hp => ?_)
      fun p a q linked known checked hq => ?_
    · exact reach_linked (headed_reach (hp.mono fun _ _ _ => trivial))
    · rw [hp]
      exact ⟨fun i => freshConn_limited env i 0, fun i beyond => absurd beyond noHead_fits, fun _ _ => rfl⟩
    · obtain ⟨t, ht, rfl⟩ := Option.map_eq_some_iff.mp hq
      exact step_watched linked known checked ht
  exact ⟨(watched.limited i).noted, watched.refused i⟩

end Runs

def headedStart : Srv Scan × (ℕ → Head) := (srvStart (stockEnv rootTable), fun _ => noHead)

def longName : Bytes := List.replicate 257 97

def twoHeads : List Step :=
  [.accept, .accept, .read 0 (ascii "GET / HTTP/1.1\r\nHost: ab\r\n\r\n"),
    .read 1 (ascii "GET / HTTP/1.1\r\n" ++ longName ++ ascii ": x\r\n\r\n")]

def dispatchedHeaders : ConnEvent → Option (List (Bytes × Bytes))
  | .dispatched _ r => some r.headers
  | _ => none

theorem headers_limited_two : ∃ p : Srv Scan × (ℕ → Head),
    (∃ k r, .dispatched k r ∈ (p.1.conns 0).trace ∧ r.headers = [(ascii "Host", ascii "ab")] ∧ Within r.headers) ∧
      (p.2 1).Exceeds ∧ Refused (p.1.conns 1) := by
  obtain ⟨p, hp, view⟩ := Option.map_eq_some_iff.mp (show
    (execWhile (headed (stockEnv rootTable)) (Checked (stockEnv rootTable)) headedStart twoHeads).map (fun p =>
      ((p.1.conns 0).trace.filterMap dispatchedHeaders, decide (p.2 1).Exceeds)) =
        some ([[(ascii "Host", ascii "ab")]], true) from by decide +kernel)
  simp only [Prod.mk.injEq] at view
  obtain ⟨dispatches, beyond⟩ := view
  have limited := headers_limited (execWhile_reach twoHeads (.start rfl) hp)
  have mem : [(ascii "Host", ascii "ab")] ∈ (p.1.conns 0).trace.filterMap dispatchedHeaders := by
    rw [dispatches]
    exact List.mem_cons_self
  obtain ⟨ev, hev, headers⟩ := List.mem_filterMap.mp mem
  refine ⟨p, ?_, of_decide_eq_true beyond, (limited 1).2 (of_decide_eq_true beyond)⟩
  cases ev with
  | dispatched k r => exact ⟨k, r, hev, Option.some.inj headers, (limited 0).1 k r hev⟩
  | rejected code => cases headers
  | wrote w => cases headers

/-- Two reads bring the name, and the request is dispatched. -/
theorem header_name_split : ¬ ∀ p : Srv Scan × (ℕ → Head), Reach (headed (stockEnv rootTable)) anyStep p → ∀ i,
    (∀ k r, .dispatched k r ∈ (p.1.conns i).trace → Within r.headers) ∧
      ((p.2 i).Exceeds → Refused (p.1.conns i)) := by
  intro claim
  obtain ⟨p, hp, view⟩ := Option.map_eq_some_iff.mp (show
    (exec (headed (stockEnv rootTable)) headedStart [.accept,
      .read 0 (ascii "GET / HTTP/1.1\r\n" ++ longName.take 200),
      .read 0 (longName.drop 200 ++ ascii ": x\r\n\r\n")]).map (fun p =>
        decide ((p.2 0).Exceeds ∧ ¬ Refused (p.1.conns 0))) = some true from by decide +kernel)
  obtain ⟨beyond, unanswered⟩ := of_decide_eq_true view
  exact unanswered ((claim p (exec_reach _ (.start rfl) (fun _ _ _ => trivial) hp) 0).2 beyond)

end Cerco.HeadReports
