import Cerco.RequestGrammar
import Cerco.ServerRules

set_option autoImplicit false

/-!
# The read buffer between two counters

`consumed` bytes of the buffer were parsed, `filled` bytes were received. Two
things break the discipline: an execute on a parser that is still paused, which
reports the distance from a null pointer, and a simple answer that drops bytes
that nobody parsed.
-/
namespace Cerco.BufferDiscipline
open Cerco.Alloc Cerco.CString Cerco.Connection Cerco.Dispatch Cerco.HttpCallbacks Cerco.Server
open Cerco.WorkerPool Cerco.TransitionRuns Cerco.ConnFrames Cerco.ServerRules Cerco.RequestGrammar
open Cerco.ArenaUse Cerco.Router Cerco.SpanParser

variable {σ : Type}

/-- The buffer holds the unparsed rest of the stream from `consumed` on, and every
execute was given exactly that. -/
structure Buffered (b : ReadBuf) : Prop where
  consumed_le : b.consumed ≤ b.filled
  filled_le : b.filled ≤ readBufSize
  length : b.mem.length = b.filled
  stream : b.rx = b.parsed ++ b.mem.drop b.consumed
  execs : ∀ e ∈ b.execs, e.1 = e.2
  fault : b.fault = false

/-- A connection that was answered with an error does not parse again. -/
def Settled (c : Conn σ) : Prop :=
  ∀ e, c.parser.error = .bad e → c.closing = true ∨ (c.forceClose = true ∧ c.statusSent = true)

structure Disciplined (c : Conn σ) : Prop where
  buffered : Buffered c.buf
  blank : c.buf.base = none → c.finalized = false → c.buf.filled = 0
  settled : Settled c

theorem Disciplined.of_eq {c d : Conn σ} (h : Disciplined c)
    (same : (d.buf, d.finalized, d.parser, d.closing, d.forceClose, d.statusSent) =
      (c.buf, c.finalized, c.parser, c.closing, c.forceClose, c.statusSent)) : Disciplined d := by
  simp only [Prod.mk.injEq] at same
  obtain ⟨e₁, e₂, e₃, e₄, e₅, e₆⟩ := same
  refine ⟨e₁ ▸ h.buffered, ?_, ?_⟩
  · rw [e₁, e₂]
    exact h.blank
  · unfold Settled
    rw [e₃, e₄, e₅, e₆]
    exact h.settled

def lingering (c : Conn σ) : Prop :=
  c.parser.error = .paused ∧ c.statusSent = false ∧ c.phase ≠ .drain

def drops (c : Conn σ) (ok : Bool) : Prop :=
  ok = true ∧ c.writes.head?.map WriteCtx.kind = some .simple ∧ c.closing = false ∧
    c.keepAlive = true ∧ c.forceClose = false ∧ c.buf.consumed ≠ c.buf.filled

def unbroken (s : Srv σ) : Step → Prop
  | .read i _ => ¬ lingering (s.conns i)
  | .written i ok => ¬ drops (s.conns i) ok
  | _ => True

instance (c : Conn σ) : Decidable (lingering c) := inferInstanceAs (Decidable (_ ∧ _))

instance (c : Conn σ) (ok : Bool) : Decidable (drops c ok) := inferInstanceAs (Decidable (_ ∧ _))

instance (s : Srv σ) (a : Step) : Decidable (unbroken s a) :=
  match a with
  | .read i _ => inferInstanceAs (Decidable (¬ lingering (s.conns i)))
  | .written i ok => inferInstanceAs (Decidable (¬ drops (s.conns i) ok))
  | .accept | .readEnd _ | .closed _ | .sweep | .reload | .tick _ | .take _ | .finish _ _ | .drain
  | .shutdown => isTrue trivial

theorem sub_mod {f c w : ℕ} (hc : c ≤ f) (hw : f < w) : (f + w - c) % w = f - c := by
  rw [show f + w - c = f - c + w by omega, Nat.add_mod_right, Nat.mod_eq_of_lt (by omega)]

theorem readBufSize_lt : readBufSize < 2 ^ 64 := by decide

theorem leftover_def (b : ReadBuf) : leftover b = (b.filled + 2 ^ 64 - b.consumed) % 2 ^ 64 := rfl

theorem Buffered.leftover_eq {b : ReadBuf} (h : Buffered b) : leftover b = b.filled - b.consumed :=
  (leftover_def b).trans (sub_mod h.consumed_le (lt_of_le_of_lt h.filled_le readBufSize_lt))

theorem Buffered.compact_eq {b : ReadBuf} (h : Buffered b) :
    compact b = { b with mem := b.mem.drop b.consumed, filled := b.filled - b.consumed, consumed := 0 } := by
  have le := h.consumed_le
  have cap := h.filled_le
  have whole : (b.mem.drop b.consumed).take (b.filled - b.consumed) = b.mem.drop b.consumed := by
    apply List.take_of_length_le
    rw [List.length_drop, h.length]
  have inside : decide (0 < b.filled - b.consumed ∧
      readBufSize < b.consumed + (b.filled - b.consumed)) = false := by
    rw [decide_eq_false_iff_not]
    omega
  unfold compact
  rw [h.leftover_eq, whole, inside, Bool.or_false]

theorem Buffered.compact {b : ReadBuf} (h : Buffered b) : Buffered (compact b) := by
  rw [h.compact_eq]
  refine ⟨Nat.zero_le _, le_trans (Nat.sub_le _ _) h.filled_le, ?_, ?_, h.execs, h.fault⟩
  · change (b.mem.drop b.consumed).length = b.filled - b.consumed
    rw [List.length_drop, h.length]
  · change b.rx = b.parsed ++ (b.mem.drop b.consumed).drop 0
    rw [List.drop_zero, h.stream]

theorem Buffered.append {b : ReadBuf} (h : Buffered b) (data : Bytes)
    (room : b.filled + data.length ≤ readBufSize) :
    Buffered { b with filled := b.filled + data.length, mem := b.mem ++ data, rx := b.rx ++ data } := by
  refine ⟨Nat.le_add_right_of_le h.consumed_le, room, ?_, ?_, h.execs, h.fault⟩
  · change (b.mem ++ data).length = b.filled + data.length
    rw [List.length_append, h.length]
  · change b.rx ++ data = b.parsed ++ (b.mem ++ data).drop b.consumed
    rw [List.drop_append_of_le_length (by rw [h.length]; exact h.consumed_le), ← List.append_assoc,
      ← h.stream]

theorem Buffered.due {b : ReadBuf} (h : Buffered b) (hc : b.consumed = 0) :
    b.rx.drop b.parsed.length = b.mem := by
  rw [h.stream, hc, List.drop_zero, List.drop_left]

theorem Buffered.executed {b : ReadBuf} (h : Buffered b) (hc : b.consumed = 0) {n : ℕ}
    (hn : n ≤ b.filled) :
    Buffered { b with
      execs := b.execs ++ [(b.mem, b.rx.drop b.parsed.length)]
      consumed := n, parsed := b.parsed ++ b.mem.take n } := by
  refine ⟨hn, h.filled_le, h.length, ?_, ?_, h.fault⟩
  · change b.rx = b.parsed ++ b.mem.take n ++ b.mem.drop n
    rw [List.append_assoc, List.take_append_drop, h.stream, hc, List.drop_zero]
  · intro e he
    obtain he | he := List.mem_append.mp he
    · exact h.execs e he
    · obtain rfl := List.mem_singleton.mp he
      exact (h.due hc).symm

/-- What an execute of a parser without error leaves: the buffer with a note, and
a position inside the buffer when it failed. -/
theorem llhttpExecute_outcome {x : Ctx σ} (hl : Linked x.c) (env : Env σ) (data : Bytes)
    (ready : x.c.parser.error = .ok) :
    ∃ y, y.c.buf = (noteExec x data).c.buf ∧ Linked y.c ∧
      ((llhttpExecute env x data = (.ok, y) ∧ ∀ e, y.c.parser.error ≠ .bad e) ∨
      ∃ e pos, llhttpExecute env x data = (.bad e, y) ∧ y.c.parser.error = .bad e ∧
        y.c.parser.errorPos = some pos ∧ pos ≤ data.length) := by
  have noted := (noteExec_housed hl data).linked
  have ran := runEvents_loose noted env (env.llhttp.buffer x.c.parser.state data).1
  obtain ⟨bad, _⟩ | ⟨_, y, hy, e⟩ | ⟨_, y, hy, e⟩ := llhttpExecute_cases env x data
  · exact absurd ready bad
  · rw [hy] at ran
    refine ⟨_, ?_, ?_, .inl ⟨e, fun err herr => ?_⟩⟩
    · exact ran.buf
    · exact ran.linked.of_eq rfl
    obtain ⟨_, _, calm | ⟨_, calm⟩⟩ := runEvents_true noted hy
    · have : y.c.parser.error = .ok := calm.trans ready
      rw [this] at herr
      cases herr
    · rw [calm] at herr
      cases herr
  · rw [hy] at ran
    obtain ⟨err, herr, q, hq, hp⟩ := runEvents_false hy
    refine ⟨y, ran.buf, ran.linked, .inr ⟨err, q.1, ?_, herr, hp, ?_⟩⟩
    · rw [e, herr]
    · exact env.llhttp.buffer_pos _ _ q hq

def Flagged (x y : Ctx σ) : Prop :=
  x.c.forceClose = true ∧ x.c.statusSent = true → y.c.forceClose = true ∧ y.c.statusSent = true

theorem Flagged.of_eq {x y : Ctx σ}
    (h : (y.c.forceClose, y.c.statusSent) = (x.c.forceClose, x.c.statusSent)) : Flagged x y := by
  simp only [Prod.mk.injEq] at h
  unfold Flagged
  rw [h.1, h.2]
  exact fun h => h

theorem Flagged.trans {x y z : Ctx σ} (h₁ : Flagged x y) (h₂ : Flagged y z) : Flagged x z :=
  fun h => h₂ (h₁ h)

theorem connCloseAndFree_flagged {x : Ctx σ} (hl : Linked x.c) : Flagged x (connCloseAndFree x) := by
  cases h : x.c.closing with
  | true =>
    rw [connCloseAndFree_closing h]
    exact .of_eq rfl
  | false =>
    obtain ⟨o, clients, st, e⟩ := connCloseAndFree_open hl h
    rw [e]
    exact .of_eq rfl

theorem uvWrite_flagged {x : Ctx σ} (hl : Linked x.c) (res : WriteRes) (w : WriteCtx) :
    Flagged x (uvWrite x res w) := by
  unfold uvWrite
  split
  · exact .of_eq rfl
  · exact connCloseAndFree_flagged hl

theorem connStartResponse_flagged {x : Ctx σ} (hl : Linked x.c) (env : Env σ) (k : ℕ) :
    Flagged x (connStartResponse env x k) := by
  obtain ⟨srv, st, res, w, rfl, e⟩ := connStartResponse_cases env x k
  rw [e]
  refine Flagged.trans (.of_eq ?_) (uvWrite_flagged ?_ _ _)
  · rfl
  · exact ⟨hl.queued, hl.closeCb, hl.finalized, hl.reading, hl.writes, by simp⟩

theorem connSseWrite_flagged {x : Ctx σ} (hl : Linked x.c) (env : Env σ) (data : Bytes) :
    Flagged x (connSseWrite env x data) := by
  have counted : Flagged x (countWrite x) := .of_eq rfl
  unfold connSseWrite
  dsimp only
  split
  · exact counted.trans (connCloseAndFree_flagged (countWrite_kept hl).linked)
  · exact counted.trans (uvWrite_flagged (countWrite_kept hl).linked _ _)

theorem drainReq_flagged {x : Ctx σ} (hl : Linked x.c) (env : Env σ) (k : ℕ) :
    Flagged x (drainReq env x k) := by
  obtain ⟨_, st, e⟩ | ⟨_, y, prep, e⟩ := drainReq_cases hl env k <;> rw [e]
  · exact .of_eq rfl
  · have ready := (prepared_kept prep hl).linked
    refine Flagged.trans ?_ (connStartResponse_flagged ready env k)
    obtain ⟨a, o, st, _, rfl⟩ := prep
    exact .of_eq rfl

theorem forced_flagged (x : Ctx σ) :
    Flagged x { x with c := { cancelReq x.c with forceClose := true } } := by
  obtain ⟨o, ho⟩ := cancelReq_objs x.c
  rw [ho]
  exact fun h => ⟨rfl, h.2⟩

theorem Disciplined.housed {x y : Ctx σ} (h : Disciplined x.c) (hy : Housed x y)
    (buf : y.c.buf = x.c.buf) (parser : y.c.parser = x.c.parser) (flags : Flagged x y) :
    Disciplined y.c := by
  refine ⟨buf ▸ h.buffered, ?_, ?_⟩
  · rw [buf, hy.finalized]
    exact h.blank
  · intro e he
    rw [parser] at he
    exact (h.settled e he).imp hy.closing flags

theorem Disciplined.kept {x y : Ctx σ} (h : Disciplined x.c) (hy : Kept x y) (flags : Flagged x y) :
    Disciplined y.c :=
  h.housed hy.toHoused hy.buf hy.parser flags

theorem connSendSimple_forced {x : Ctx σ} (hl : Linked x.c) (env : Env σ) (code : ℕ)
    (hdr : Option Bytes) (body : Bytes) :
    (connSendSimple env x code hdr body true).c.closing = true ∨
      ((connSendSimple env x code hdr body true).c.forceClose = true ∧
        (connSendSimple env x code hdr body true).c.statusSent = true) := by
  obtain e | ⟨srv, st, res, _, e⟩ := connSendSimple_cases env x code hdr body true <;> rw [e]
  · exact .inl (connCloseAndFree_closes (countWrite_kept hl).linked)
  · right
    refine uvWrite_flagged ?_ _ _ ⟨?_, ?_⟩
    · exact hl.of_eq rfl
    · rfl
    · rfl

theorem rejectRequest_disciplined {x : Ctx σ} (hl : Linked x.c) (env : Env σ) (code : ℕ)
    (reason : Bytes) (buffered : Buffered x.c.buf)
    (blank : x.c.buf.base = none → x.c.finalized = false → x.c.buf.filled = 0) :
    Disciplined (rejectRequest env x code reason).c := by
  have noted : Linked { x.c with forceClose := true, trace := x.c.trace ++ [.rejected code] } :=
    hl.of_eq rfl
  have kept := connSendSimple_kept (x := { x with c := { x.c with
    forceClose := true, trace := x.c.trace ++ [.rejected code] } }) noted env code none reason true
  have settled := connSendSimple_forced (x := { x with c := { x.c with
    forceClose := true, trace := x.c.trace ++ [.rejected code] } }) noted env code none reason
  refine ⟨?_, ?_, fun _ _ => settled⟩
  · unfold rejectRequest
    rw [kept.buf]
    exact buffered
  · unfold rejectRequest
    rw [kept.buf, kept.finalized]
    exact blank

theorem connAllocCb_open {x : Ctx σ} (env : Env σ) (h : x.c.closing = false)
    (hf : x.c.finalized = false) :
    (x.c.buf.base = none ∧ connAllocCb env x = (some readBufSize, { x with c := { x.c with
      buf := { x.c.buf with base := some (env.bufAddr x.id), mem := [], filled := 0, consumed := 0 } } })) ∨
    (x.c.buf.base.isSome = true ∧
      connAllocCb env x = (some ((readBufSize + 2 ^ 64 - (compact x.c.buf).filled) % 2 ^ 64),
        { x with c := { x.c with buf := compact x.c.buf } })) := by
  unfold connAllocCb
  rw [h, hf, if_neg (by decide)]
  cases hb : x.c.buf.base with
  | none =>
    left
    refine ⟨rfl, ?_⟩
    dsimp only
    rw [sub_mod (Nat.zero_le _) readBufSize_lt, Nat.sub_zero]
  | some b => exact .inr ⟨rfl, rfl⟩

theorem Disciplined.allocated {x : Ctx σ} (h : Disciplined x.c) (env : Env σ)
    (hc : x.c.closing = false) (hf : x.c.finalized = false) :
    ∃ b, Buffered b ∧ b.consumed = 0 ∧ b.base.isSome = true ∧
      connAllocCb env x = (some (readBufSize - b.filled), { x with c := { x.c with buf := b } }) := by
  obtain ⟨base, e⟩ | ⟨base, e⟩ := connAllocCb_open env hc hf
  · have filled := h.blank base hf
    have mem : x.c.buf.mem = [] :=
      List.eq_nil_of_length_eq_zero (h.buffered.length.trans filled)
    have stream := h.buffered.stream
    rw [mem, List.drop_nil] at stream
    refine ⟨{ x.c.buf with base := some (env.bufAddr x.id), mem := [], filled := 0, consumed := 0 },
      ⟨Nat.le_refl _, Nat.zero_le _, rfl, stream, h.buffered.execs, h.buffered.fault⟩, rfl, rfl, ?_⟩
    rw [e, Nat.sub_zero]
  · have compacted := h.buffered.compact
    have shape := h.buffered.compact_eq
    generalize compact x.c.buf = b at e compacted shape
    refine ⟨b, compacted, ?_, ?_, ?_⟩
    · rw [shape]
    · rw [shape]
      exact base
    · rw [e, sub_mod compacted.filled_le readBufSize_lt]

theorem connAllocCb_disciplined {x : Ctx σ} (h : Disciplined x.c) (env : Env σ) :
    Disciplined (connAllocCb env x).2.c := by
  cases hc : x.c.closing || x.c.finalized with
  | true =>
    unfold connAllocCb
    rw [hc]
    exact h
  | false =>
    rw [Bool.or_eq_false_iff] at hc
    obtain ⟨b, buffered, _, base, e⟩ := h.allocated env hc.1 hc.2
    rw [e]
    refine ⟨buffered, fun hn => ?_, h.settled⟩
    rw [hn] at base
    cases base

theorem executed_disciplined {x : Ctx σ} (hl : Linked x.c) (env : Env σ) (h : Buffered x.c.buf)
    (hc : x.c.buf.consumed = 0)
    (blank : x.c.buf.base = none → x.c.finalized = false → x.c.buf.filled = 0)
    (ready : x.c.parser.error = .ok) :
    (∃ y, llhttpExecute env x x.c.buf.mem = (.ok, y) ∧ Linked y.c ∧
      ∀ n ≤ x.c.buf.filled, Disciplined (setConsumed y x.c.buf.mem n).c) ∨
    ∃ e y, llhttpExecute env x x.c.buf.mem = (.bad e, y) ∧ Linked y.c ∧
      Buffered y.c.buf ∧ Buffered (setConsumed y x.c.buf.mem (errorOffset y.c)).c.buf ∧
      (y.c.buf.base = none → y.c.finalized = false → y.c.buf.filled = 0) := by
  have ran := llhttpExecute_housed hl env x.c.buf.mem
  obtain ⟨y, hb, linked, ⟨e, calm⟩ | ⟨err, pos, e, herr, hp, le⟩⟩ :=
    llhttpExecute_outcome hl env x.c.buf.mem ready <;> rw [e] at ran
  · refine .inl ⟨y, e, linked, fun n hn => ⟨?_, ?_, fun err he => absurd he (calm err)⟩⟩
    · unfold setConsumed
      rw [hb]
      exact h.executed hc hn
    · unfold setConsumed
      rw [hb, ran.finalized]
      exact blank
  · have offset : errorOffset y.c = pos := by
      unfold errorOffset
      rw [hp]
    refine .inr ⟨err, y, e, linked, ?_, ?_, ?_⟩
    · have noted := h.executed hc (Nat.zero_le x.c.buf.filled)
      rw [List.take_zero, List.append_nil] at noted
      rw [hb]
      unfold noteExec
      rwa [← hc] at noted
    · unfold setConsumed
      rw [offset, hb]
      exact h.executed hc (h.length ▸ le)
    · rw [hb, ran.finalized]
      exact blank

theorem readFrom_disciplined {x : Ctx σ} (hl : Linked x.c) (env : Env σ) (h : Disciplined x.c)
    (hc : x.c.buf.consumed = 0)
    (ready : x.c.statusSent = false → x.c.phase ≠ .drain → x.c.parser.error = .ok) :
    Disciplined (readFrom env x).c := by
  unfold readFrom
  split
  · split
    · exact h.kept (connCloseAndFree_kept hl) (connCloseAndFree_flagged hl)
    · exact h
  · rename_i going
    rw [Bool.or_eq_true, not_or, decide_eq_true_eq, Bool.not_eq_true] at going
    obtain ⟨y, e, linked, consumed⟩ | ⟨err, y, e, linked, _, buffered, blank⟩ :=
      executed_disciplined hl env h.buffered hc h.blank (ready going.1 going.2)
    · have filled : y.c.buf.filled = x.c.buf.filled := by
        have ran := llhttpExecute_outcome hl env x.c.buf.mem (ready going.1 going.2)
        obtain ⟨z, hz, _, ⟨e', _⟩ | ⟨_, _, e', _⟩⟩ := ran <;> rw [e] at e'
        · cases e'
          rw [hz]
          rfl
        · cases e'
      dsimp only
      rw [e]
      dsimp only
      rw [filled]
      exact consumed _ (Nat.le_refl _)
    · dsimp only
      rw [e]
      exact rejectRequest_disciplined (setConsumed_housed linked _ _).linked env _ _ buffered blank

theorem connOnRead_disciplined {x : Ctx σ} (hl : Linked x.c) (env : Env σ) (h : Disciplined x.c)
    (hc : x.c.buf.consumed = 0) (base : x.c.buf.base.isSome = true) (data : Bytes)
    (room : data.length ≤ readBufSize - x.c.buf.filled)
    (ready : x.c.statusSent = false → x.c.phase ≠ .drain → x.c.parser.error = .ok) :
    Disciplined (connOnRead env x data).c := by
  unfold connOnRead
  refine readFrom_disciplined (received_housed hl data).linked env ⟨?_, ?_, h.settled⟩ hc ready
  · have cap := h.buffered.filled_le
    exact h.buffered.append data (by omega)
  · intro hn
    rw [show (received x data).c.buf.base = x.c.buf.base from rfl] at hn
    rw [hn] at base
    cases base

theorem resumeFrom_disciplined {x : Ctx σ} (hl : Linked x.c) (env : Env σ) (h : Disciplined x.c)
    (hc : x.c.buf.consumed = 0) (ready : x.c.parser.error = .ok) :
    Disciplined (resumeFrom env x).c := by
  have started : ∀ y : Ctx σ, Disciplined y.c → Disciplined (readStart y.c) :=
    fun y hy => ⟨hy.buffered, hy.blank, hy.settled⟩
  unfold resumeFrom
  dsimp only
  split
  · obtain ⟨y, e, linked, consumed⟩ | ⟨err, y, e, linked, buffered, _, blank⟩ :=
      executed_disciplined hl env h.buffered hc h.blank ready
    · rw [e]
      exact started _ (consumed _ (Nat.le_of_eq h.buffered.length))
    · rw [e]
      exact rejectRequest_disciplined linked env _ _ buffered blank
  · exact started x h

theorem llhttpResume_error {p : Parser σ} (h : ∀ e, p.error ≠ .bad e) : (llhttpResume p).error = .ok := by
  unfold llhttpResume
  split
  · cases he : p.error with
    | ok => rfl
    | paused => exact absurd he ‹_›
    | bad e => exact absurd he (h e)
  · rfl

theorem Disciplined.fine {c : Conn σ} (h : Disciplined c) (hc : c.closing = false)
    (hf : c.forceClose = false) (e : HttpError) : c.parser.error ≠ .bad e := by
  intro he
  obtain closing | ⟨forced, _⟩ := h.settled e he
  · rw [hc] at closing
    cases closing
  · rw [hf] at forced
    cases forced

theorem afterResponse_disciplined {x : Ctx σ} (hl : Linked x.c) (env : Env σ) (h : Disciplined x.c)
    (ok : Bool) : Disciplined (afterResponse env x ok).c := by
  have counted := countAnswered_kept hl
  obtain ⟨_, e⟩ | ⟨_, _, e⟩ | ⟨_, hc, _, e⟩ | ⟨_, hc, hf, _, e⟩ := afterResponse_cases hl env ok <;>
    rw [e]
  · exact Disciplined.kept (x := countAnswered x) h (connCloseAndFree_kept counted.linked)
      (connCloseAndFree_flagged counted.linked)
  · exact ⟨h.buffered, h.blank, h.settled⟩
  · unfold connCloseGraceful
    split
    · exact h
    · exact ⟨h.buffered, h.blank, h.settled⟩
  · have ready : (rearmed env (countAnswered x)).c.parser.error = .ok :=
      llhttpResume_error (h.fine hc hf)
    have shape := h.buffered.compact_eq
    refine resumeFrom_disciplined (rearmed_seated counted.linked env).linked env ⟨?_, ?_, ?_⟩ ?_ ready
    · exact h.buffered.compact
    · change (compact x.c.buf).base = none → x.c.finalized = false → (compact x.c.buf).filled = 0
      intro base alive
      rw [shape] at base ⊢
      change x.c.buf.filled - x.c.buf.consumed = 0
      rw [h.blank base alive, Nat.zero_sub]
    · intro err he
      rw [ready] at he
      cases he
    · change (compact x.c.buf).consumed = 0
      rw [shape]

theorem onSimpleWritten_disciplined {x : Ctx σ} (hl : Linked x.c) (env : Env σ)
    (h : Disciplined x.c) (ok : Bool)
    (parsed : ok = true → x.c.closing = false → x.c.keepAlive = true → x.c.forceClose = false →
      x.c.buf.consumed = x.c.buf.filled) : Disciplined (onSimpleWritten env x ok).c := by
  have counted := countAnswered_kept (popped_housed hl).linked
  have less : Disciplined (countAnswered (popped x)).c := h.of_eq rfl
  obtain ⟨_, e⟩ | ⟨_, _, e⟩ | ⟨hc, hok, hk, hf, e⟩ | ⟨_, _, _, e⟩ := onSimpleWritten_cases hl env ok <;>
    rw [e]
  · exact less
  · exact less.kept (connCloseAndFree_kept counted.linked) (connCloseAndFree_flagged counted.linked)
  · have stream : x.c.buf.rx = x.c.buf.parsed ++ [] := by
      have whole := h.buffered.stream
      rwa [parsed hok hc hk hf, ← h.buffered.length, List.drop_length] at whole
    refine ⟨⟨Nat.le_refl _, Nat.zero_le _, rfl, stream, h.buffered.execs, h.buffered.fault⟩,
      fun _ _ => rfl, fun err he => ?_⟩
    change (llhttpResume x.c.parser).error = _ at he
    rw [llhttpResume_error (h.fine hc hf)] at he
    cases he
  · unfold connCloseGraceful
    split
    · exact less
    · exact less.of_eq rfl

theorem freshConn_disciplined (env : Env σ) (i now : ℕ) : Disciplined (freshConn env i now) :=
  ⟨⟨Nat.le_refl _, Nat.zero_le _, rfl, rfl, fun _ he => (by cases he), rfl⟩, fun _ _ => rfl,
    fun _ he => (by cases he)⟩

theorem disciplined_rules (env : Env σ) : ConnRules env unbroken fun _ c => Disciplined c where
  fresh i now := freshConn_disciplined env i now
  accept i now := (freshConn_disciplined env i now).of_eq rfl
  busy x now hx := by
    have linked : Linked x.c := hx ▸ freshConn_linked env x.id now
    have fresh : Disciplined x.c := hx ▸ freshConn_disciplined env x.id now
    refine fresh.kept (connSendSimple_kept linked env _ _ _ _) fun h => ?_
    rw [hx] at h
    cases h.1
  read s i data room x hok hC hl h hr hx hd hlen := by
    have hc : (s.conns i).closing = false := hl.reading hr
    have hf : (s.conns i).finalized = false := by
      by_contra hf
      have := hl.finalized (by simpa using hf)
      rw [hc] at this
      cases this
    have buffered := connAllocCb_housed (x := s.enter i) hl env
    have kept := connAllocCb_disciplined (x := s.enter i) h env
    obtain ⟨b, _, consumed, base, e⟩ := Disciplined.allocated (x := s.enter i) h env hc hf
    rw [hx] at e buffered kept
    cases e
    refine connOnRead_disciplined buffered.linked env kept consumed base data hlen fun sent phase => ?_
    change (s.conns i).parser.error = .ok
    cases he : (s.conns i).parser.error with
    | ok => rfl
    | paused => exact absurd ⟨he, sent, phase⟩ hok
    | bad err =>
      obtain closing | ⟨_, answered⟩ := h.settled err he
      · rw [hc] at closing
        cases closing
      · rw [show (s.conns i).statusSent = false from sent] at answered
        cases answered
  readEnd m x hl h _ := by
    have buffered := connAllocCb_housed hl env
    exact (connAllocCb_disciplined h env).kept (connCloseAndFree_kept buffered.linked)
      (connCloseAndFree_flagged buffered.linked)
  written s i b w rest hok hC hl h hw := by
    have less := popped_housed (x := s.enter i) hl
    have kept : Disciplined (popped (s.enter i)).c := h.of_eq rfl
    cases hk : w.kind with
    | response k =>
      change Disciplined (onResponseWritten env (s.enter i) b).c
      rw [onResponseWritten_eq hl]
      split
      · exact kept
      · exact afterResponse_disciplined (x := popped (s.enter i)) less.linked env kept b
    | simple =>
      refine onSimpleWritten_disciplined (x := s.enter i) hl env h b fun hb hc hk' hf => ?_
      by_contra ne
      refine hok ⟨hb, ?_, hc, hk', hf, ne⟩
      rw [hw, List.head?_cons, Option.map_some, hk]
    | sse =>
      change Disciplined (connOnSseWritten (s.enter i) b).c
      obtain e | e := connOnSseWritten_cases (x := s.enter i) hl b <;> rw [e]
      · exact kept
      · exact kept.kept (connCloseAndFree_kept less.linked)
          (connCloseAndFree_flagged less.linked)
  closed s i hok hl h hq hd hw := by
    have alive : (s.conns i).finalized = false := by rw [← hl.closeCb, hd]
    obtain ⟨srv, a, _, _, e⟩ := connFinalize_cases (x := { (s.enter i) with
      c := { s.conns i with closeCbDone := true } }) alive
    rw [connOnStreamClosed_eq (x := s.enter i) hl hq hd hw]
    change Disciplined (connFinalize { (s.enter i) with
      c := { s.conns i with closeCbDone := true } }).c
    rw [e]
    exact ⟨⟨h.buffered.consumed_le, h.buffered.filled_le, h.buffered.length, h.buffered.stream,
      h.buffered.execs, h.buffered.fault⟩, fun _ hn => (by cases hn), h.settled⟩
  deadline m x hl h := by
    have forced := forceClose_kept hl
    have flagged := forced_flagged x
    refine h.kept (connDeadlinePass_kept hl).1 ?_
    unfold connDeadlinePass
    split
    · exact flagged.trans (connCloseAndFree_flagged forced.linked)
    · exact .of_eq rfl
  shutdown m x hl h := by
    refine h.kept (shutdownConn_kept hl).1 ?_
    unfold shutdownConn
    split
    · exact connCloseAndFree_flagged hl
    · split
      · exact forced_flagged x
      · exact .of_eq rfl
  reload m x hl h := by
    refine h.kept (reloadConn_kept hl env).1 ?_
    unfold reloadConn
    split
    · exact .of_eq rfl
    · exact connSseWrite_flagged hl env _
  handler m x k calls hl h := h.kept (withReq_kept hl k (handlerRun_allocs calls)) (.of_eq rfl)
  finish := .inr fun _ _ _ _ h => h
  drain m ref x hl h := h.kept (drainReq_kept hl env ref.req).1 (drainReq_flagged hl env ref.req)

/-- As long as no read reaches a parser that is still paused, and no simple answer
drops bytes, the counters stay in order, the bytes that are left over never lie
outside the buffer, and every execute is given exactly the unparsed bytes. -/
theorem read_buffer_disciplined {env : Env σ} {s : Srv σ} (h : Reach (server env) unbroken s)
    (i : ℕ) :
    (s.conns i).buf.consumed ≤ (s.conns i).buf.filled ∧ (s.conns i).buf.filled ≤ readBufSize ∧
      leftover (s.conns i).buf = (s.conns i).buf.filled - (s.conns i).buf.consumed ∧
      (s.conns i).buf.fault = false ∧ ∀ e ∈ (s.conns i).buf.execs, e.1 = e.2 := by
  have buffered := (((disciplined_rules env).reach h).each i).buffered
  exact ⟨buffered.consumed_le, buffered.filled_le, buffered.leftover_eq, buffered.fault,
    buffered.execs⟩

/-- Two requests, one after the other. -/
theorem read_buffer_disciplined_twice : ∃ s : Srv Scan,
    ((s.conns 0).buf.execs.length, (s.conns 0).buf.consumed, (s.conns 0).buf.filled) = (2, 18, 18) ∧
      ∀ e ∈ (s.conns 0).buf.execs, e.1 = e.2 := by
  obtain ⟨s, hs, e⟩ := stock_reach_while unbroken rootTable
    (fun s => ((s.conns 0).buf.execs.length, (s.conns 0).buf.consumed, (s.conns 0).buf.filled))
    [.accept, .read 0 getRoot, .take 0, .finish 0 [.write (ascii "hi")], .drain, .written 0 true,
      .read 0 getRoot] (2, 18, 18) (by decide +kernel)
  exact ⟨s, e, (read_buffer_disciplined hs 0).2.2.2.2⟩

/-- A byte behind a request that waits for its worker reaches a paused parser: the
distance from the null pointer becomes `consumed`, and once the response is written
the move of the leftover bytes leaves the buffer. A byte behind a request that is
answered with 405 is dropped, and the next execute starts in the middle of a request. -/
theorem paused_execute_breaks :
    (∃ s : Srv Scan, Reach (server (stockEnv rootTable)) anyStep s ∧
      (s.conns 0).buf.filled < (s.conns 0).buf.consumed) ∧
    (∃ s : Srv Scan, Reach (server (stockEnv rootTable)) anyStep s ∧
      (s.conns 0).buf.fault = true) ∧
    ∃ s : Srv Scan, Reach (server (stockEnv rootTable)) anyStep s ∧
      ∃ e ∈ (s.conns 0).buf.execs, e.1 ≠ e.2 := by
  obtain ⟨s, hs, e⟩ := stock_reach anyStep rootTable
    (fun s => decide ((s.conns 0).buf.filled < (s.conns 0).buf.consumed))
    [.accept, .read 0 getRoot, .read 0 [71]] true (fun _ _ _ => trivial) (by decide +kernel)
  obtain ⟨t, ht, f⟩ := stock_reach anyStep rootTable
    (fun s => (s.conns 0).buf.fault)
    [.accept, .read 0 getRoot, .read 0 [71], .take 0, .finish 0 [.write (ascii "hi")], .drain,
      .written 0 true] true (fun _ _ _ => trivial) (by decide +kernel)
  obtain ⟨u, hu, g⟩ := stock_reach anyStep rootTable
    (fun s => (s.conns 0).buf.execs.getLast?)
    [.accept, .read 0 postRoot, .read 0 [71], .written 0 true, .read 0 [69]]
    (some ([69], [71, 69])) (fun _ _ _ => trivial) (by decide +kernel)
  refine ⟨⟨s, hs, of_decide_eq_true e⟩, ⟨t, ht, f⟩, u, hu, _, List.mem_of_getLast? g, ?_⟩
  decide

end Cerco.BufferDiscipline
