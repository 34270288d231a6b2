import Cerco.BlockRuns
import Cerco.DomStream

set_option autoImplicit false

/-!
# The bounds of the command buffer

A command is appended whole before `cmd_end` looks at the length, so it stays inside
`cmd_buf` when there was room for it before.
-/
namespace Cerco.CommandBounds
open Cerco.BlockRuns Cerco.ByteMemory Cerco.CString Cerco.DomStream
open Cerco.ClientBody (putU32 putU32_eq)

variable {τ : Type} [CText τ]

def strParts (text : Bytes) : List Bytes := [putU32 text.length, text]

def textParts (op : UInt8) (node : UInt32) (text : Bytes) : List Bytes := [op] :: putU32 node.toNat :: strParts text

/-- What the calls of `cmd_put` store, in order. -/
def opParts (s : DomSt) : DomOp τ → List Bytes
  | .setText node t => textParts 2 node (CText.bytes t)
  | .setAttr node k v => [3] :: putU32 node.toNat :: (strParts (CText.bytes k) ++ strParts (CText.bytes v))
  | .removeAttr node k => textParts 4 node (CText.bytes k)
  | .setClass node cls => textParts 7 node (CText.bytes cls)
  | .addClass node cls => textParts 8 node (CText.bytes cls)
  | .removeClass node cls => textParts 9 node (CText.bytes cls)
  | .create tag parent => [1] :: putU32 s.nextId.toNat :: (strParts (CText.bytes tag) ++ [putU32 parent.toNat])
  | .remove node => [[6], putU32 node.toNat]
  | .setValue node v => textParts 11 node (CText.bytes v)
  | .setInnerHtml node html => textParts 12 node (CText.bytes html)
  | .on node event _ _ =>
    if maxEventSlots ≤ s.slots.length then []
    else [10] :: putU32 node.toNat :: (strParts (CText.bytes event) ++ [putU32 s.slots.length])
  | .flush => []

def opBlocks (s : DomSt) (op : DomOp τ) : List (ℕ × ℕ) := blocksFrom s.len (opParts s op)

/-- The command as the operation appends it. -/
def opBytes (s : DomSt) (op : DomOp τ) : Bytes := (opParts s op).flatten

theorem cmdPutStr_parts (s : DomSt) (text : Bytes) : cmdPutStr s text = (strParts text).foldl DomSt.put s := by
  unfold cmdPutStr cmdPutU32
  dsimp only
  by_cases empty : text.length ≠ 0
  · rw [if_pos empty]
    rfl
  · have none := List.eq_nil_of_length_eq_zero (not_not.mp empty)
    rw [if_neg empty, none]
    rfl

theorem textOp_parts (s : DomSt) (op : UInt8) (node : UInt32) (text : Bytes) :
    textOp s op node text = cmdEnd ((textParts op node text).foldl DomSt.put s) := by
  unfold textOp
  rw [cmdPutStr_parts]
  rfl

theorem run_parts {s : DomSt} {op : DomOp τ} (h : opParts s op ≠ []) :
    ∃ base, SameStream base s ∧ op.run s = cmdEnd ((opParts s op).foldl DomSt.put base) := by
  cases op with
  | setText node t | removeAttr node t | setClass node t | addClass node t | removeClass node t
  | setValue node t | setInnerHtml node t => exact ⟨s, ⟨rfl, rfl, rfl⟩, textOp_parts s _ node _⟩
  | setAttr node k v =>
    refine ⟨s, ⟨rfl, rfl, rfl⟩, ?_⟩
    rw [DomOp.run, cmdPutStr_parts, cmdPutStr_parts, ← List.foldl_append]
    rfl
  | remove node => exact ⟨s, ⟨rfl, rfl, rfl⟩, rfl⟩
  | create tag parent =>
    refine ⟨{ s with nextId := s.nextId + 1 }, ⟨rfl, rfl, rfl⟩, ?_⟩
    rw [DomOp.run, cercoCreate, cmdPutStr_parts]
    rfl
  | on node event fn user =>
    by_cases full : maxEventSlots ≤ s.slots.length
    · exact absurd (if_pos full) h
    · refine ⟨{ s with slots := s.slots ++ [(fn, user)] }, ⟨rfl, rfl, rfl⟩, ?_⟩
      rw [DomOp.run, cercoOn, if_neg full, cmdPutStr_parts, opParts, if_neg full]
      rfl
  | flush => exact absurd rfl h

theorem run_noParts {s : DomSt} {op : DomOp τ} (h : opParts s op = []) : op.run s = s ∨ op.run s = domFlush s := by
  cases op with
  | on node event fn user =>
    by_cases full : maxEventSlots ≤ s.slots.length
    · exact .inl (if_pos full)
    · rw [opParts, if_neg full] at h
      cases h
  | flush => exact .inr rfl
  | setText | setAttr | removeAttr | setClass | addClass | removeClass | create | remove | setValue
  | setInnerHtml => cases h

theorem strParts_flatten (t : Option DomText) :
    (strParts (CText.bytes t)).flatten = (Field.str (textChars t)).bytes := by
  simp only [strParts, List.flatten_cons, List.flatten_nil, List.append_nil, putU32_eq,
    show CText.bytes t = utf8 (textChars t) from textBytes_eq t]
  rfl

theorem opBytes_cmd {s : DomSt} {op : TextOp} {c : Cmd} (h : opCmd s op = some c) : opBytes s op = c.bytes := by
  unfold opBytes
  cases op with
  | setText node t | removeAttr node t | setClass node t | addClass node t | removeClass node t
  | setValue node t | setInnerHtml node t =>
    cases h
    simp only [opParts, textParts, List.flatten_cons, strParts_flatten, putU32_eq]
    simp only [Cmd.bytes, Cmd.parts, List.flatMap_cons, List.flatMap_nil, List.append_nil, List.singleton_append]
    rfl
  | setAttr node k v =>
    cases h
    simp only [opParts, List.flatten_cons, List.flatten_append, strParts_flatten, putU32_eq]
    simp only [Cmd.bytes, Cmd.parts, List.flatMap_cons, List.flatMap_nil, List.append_nil, List.singleton_append]
    rfl
  | remove node =>
    cases h
    simp only [opParts, List.flatten_cons, List.flatten_nil, putU32_eq]
    rfl
  | create tag parent =>
    cases h
    simp only [opParts, List.flatten_cons, List.flatten_nil, List.flatten_append, strParts_flatten, putU32_eq]
    rfl
  | on node event fn user =>
    simp only [opCmd] at h
    split at h
    · cases h
    · rename_i free
      cases h
      simp only [opParts, if_neg free, List.flatten_cons, List.flatten_nil, List.flatten_append,
        strParts_flatten, putU32_eq]
      rfl
  | flush => cases h

/-- There is room for the command of an operation, if it has one. -/
def Roomy (s : DomSt) (op : DomOp τ) : Prop := opParts s op ≠ [] → s.len + (opBytes s op).length ≤ cmdBufSize

theorem opBlocks_within (s : DomSt) (op : DomOp τ) :
    (∀ b ∈ opBlocks s op, Within cmdBufSize b) ↔ Roomy s op := by
  unfold opBlocks Roomy opBytes
  cases opParts s op with
  | nil => exact ⟨fun _ h => absurd rfl h, fun _ b hb => (by cases hb)⟩
  | cons p ps =>
    rw [blocksFrom_within]
    exact ⟨fun le _ => le, fun all => all (List.cons_ne_nil p ps)⟩

def Flushed (s : DomSt) : Prop := s.len ≤ cmdBufSize - cmdBufSize / 4

theorem Flushed.domFlush {s : DomSt} (h : Flushed s) : Flushed (domFlush s) := by
  unfold DomStream.domFlush
  split
  · exact Nat.zero_le _
  · exact h

theorem flushed_cmdEnd (s : DomSt) : Flushed (cmdEnd s) := by
  unfold cmdEnd DomStream.domFlush
  split
  · rename_i full
    split
    · exact Nat.zero_le _
    · rename_i empty
      rw [not_not.mp empty] at full
      exact absurd full (by decide)
  · exact Nat.le_of_not_lt ‹_›

theorem Flushed.run {s : DomSt} (h : Flushed s) (op : DomOp τ) : Flushed (op.run s) := by
  by_cases some_ : opParts s op = []
  · obtain e | e := run_noParts some_
    · rwa [e]
    · rw [e]
      exact h.domFlush
  · obtain ⟨base, _, e⟩ := run_parts some_
    rw [e]
    exact flushed_cmdEnd _

theorem Flushed.roomy {s : DomSt} (h : Flushed s) {op : DomOp τ} (small : (opBytes s op).length ≤ 8192) :
    Roomy s op := by
  have size : cmdBufSize = 32768 := rfl
  unfold Flushed at h
  unfold Roomy
  omega

end Cerco.CommandBounds
