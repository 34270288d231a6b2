import Cerco.DomStream
import Cerco.TransitionRuns

set_option autoImplicit false

/-!
# The ids of DOM nodes

The client numbers the nodes that it creates, the host those that it finds, and one
table of the host holds both. The commands of the client get to the host as they were
encoded.
-/
namespace Cerco.NodeIds
open Cerco.ByteMemory Cerco.DomStream Cerco.TransitionRuns

/-- A node of the document, or the one that the `k`-th CREATE makes. -/
inductive DomNode
  | doc (n : ℕ)
  | made (k : ℕ)
deriving DecidableEq

/-- The client with its commands that are not flushed, each with the number of nodes
created before it, and the host. `clashed` remembers whether an id was ever given while
another node had it, and whether an entry of another node was ever replaced. -/
structure Page where
  dom : DomSt
  pending : List (ℕ × Cmd)
  made : ℕ
  nextNode : ℕ
  registry : ℕ → Option DomNode
  clashed : Bool

/-- `registry[1]` is the body. -/
def pageStart (m : Mem) : Page :=
  ⟨domStart m, [], 0, 10, fun id => if id = 1 then some (.doc 0) else none, false⟩

def jsSucc (n : ℕ) : ℕ := if n < 2 ^ 53 then n + 1 else n

def entryOfOther (registry : ℕ → Option DomNode) (id : ℕ) (n : DomNode) : Bool :=
  (registry id).any fun m => m != n

def waitsForOther (pending : List (ℕ × Cmd)) (id : ℕ) (n : DomNode) : Bool :=
  pending.any fun p => match p.2 with
    | .create i _ _ => i == id && DomNode.made p.1 != n
    | _ => false

def Page.give (s : Page) (id : ℕ) (n : DomNode) : Page :=
  { s with clashed := s.clashed || entryOfOther s.registry id n || waitsForOther s.pending id n }

/-- The host registers a node; the client gets the id as an `i32`. -/
def Page.register (s : Page) (n : DomNode) : Page :=
  let id := s.nextNode
  let s := s.give (id % 2 ^ 32) n
  { s with
    nextNode := jsSucc id
    registry := Function.update s.registry id (some n)
    clashed := s.clashed || entryOfOther s.registry id n }

/-- `processCommand`, as far as the registry goes. -/
def hostCommand (h : (ℕ → Option DomNode) × Bool) (p : ℕ × Cmd) : (ℕ → Option DomNode) × Bool :=
  match p.2 with
  | .create id _ _ => (Function.update h.1 id (some (.made p.1)), h.2 || entryOfOther h.1 id (.made p.1))
  | .removeNode id => (Function.update h.1 id none, h.2)
  | _ => h

def Page.flush (s : Page) : Page :=
  let h := s.pending.foldl hostCommand (s.registry, s.clashed)
  { s with pending := [], registry := h.1, clashed := h.2 }

def Page.domOp (s : Page) (op : TextOp) : Page :=
  let t := match op with
    | .create _ _ => { s.give s.dom.nextId.toNat (.made s.made) with made := s.made + 1 }
    | _ => s
  let t := { t with
    dom := op.run s.dom
    pending := s.pending ++ ((opCmd s.dom op).map fun c => (s.made, c)).toList }
  if (op.run s.dom).sent.length = s.dom.sent.length then t else t.flush

/-- `sweepDetached`; the loop goes over the indices of an array. -/
def sweepDetached (connected : DomNode → Bool) (registry : ℕ → Option DomNode) (id : ℕ) : Option DomNode :=
  if 2 ≤ id ∧ id < 2 ^ 32 - 1 then (registry id).filter connected else registry id

inductive PageEvent
  | op (o : TextOp)
  | query (found : Option DomNode)
  | hydrateRoots (els : List DomNode)
  | swapPage (connected : DomNode → Bool)
  | eventsReset

def Page.run (s : Page) : PageEvent → Page
  | .op o => s.domOp o
  | .query none => s
  | .query (some n) => s.register n
  | .hydrateRoots els => els.foldl Page.register s
  | .swapPage connected => { s with registry := sweepDetached connected s.registry }
  | .eventsReset => { s with dom := { s.dom with slots := [] } }

def page : System Page PageEvent where
  start s := ∃ m, s = pageStart m
  step s e := some (s.run e)

def HostRoom (s : Page) (k : ℕ) : Prop :=
  s.nextNode + k ≤ 2 ^ 20 ∨ s.dom.nextId = UInt32.ofNat (2 ^ 20) ∧ s.nextNode + k ≤ 2 ^ 32

/-- The ids below the counter of the host are its own, the others belong to created nodes. -/
structure Numbered (s : Page) : Prop where
  clean : s.clashed = false
  counter : s.dom.nextId = UInt32.ofNat (2 ^ 20 + s.made)
  bound : s.made ≤ 2 ^ 32 - 2 ^ 20
  split : s.made = 0 ∨ s.nextNode ≤ 2 ^ 20
  host : 10 ≤ s.nextNode ∧ s.nextNode ≤ 2 ^ 32
  entries : ∀ id n, s.registry id = some n →
    id < s.nextNode ∨ ∃ k, k < s.made ∧ id = 2 ^ 20 + k ∧ n = .made k
  waiting : ∀ p ∈ s.pending, ∀ id tag parent, p.2 = .create id tag parent → p.1 < s.made ∧ id = 2 ^ 20 + p.1

def Owned (nextNode made : ℕ) (registry : ℕ → Option DomNode) : Prop :=
  ∀ id n, registry id = some n → id < nextNode ∨ ∃ k, k < made ∧ id = 2 ^ 20 + k ∧ n = .made k

theorem Numbered.unborn {s : Page} (h : Numbered s) (start : s.dom.nextId = UInt32.ofNat (2 ^ 20)) :
    s.made = 0 := by
  have bound := h.bound
  have counter := h.counter
  rw [start] at counter
  have value := congrArg UInt32.toNat counter
  rw [UInt32.toNat_ofNat', UInt32.toNat_ofNat'] at value
  omega

theorem HostRoom.made {s : Page} {k : ℕ} (room : HostRoom s k) (h : Numbered s) :
    s.nextNode + k ≤ 2 ^ 32 ∧ (s.made = 0 ∨ s.nextNode + k ≤ 2 ^ 20) := by
  rcases room with low | ⟨start, low⟩
  · exact ⟨by omega, .inr low⟩
  · exact ⟨low, .inl (h.unborn start)⟩

theorem Numbered.no_entry {s : Page} (h : Numbered s) {id : ℕ} (host : s.nextNode ≤ id)
    (client : s.made = 0 ∨ id < 2 ^ 20 ∨ 2 ^ 20 + s.made ≤ id) (n : DomNode) :
    entryOfOther s.registry id n = false := by
  unfold entryOfOther
  cases found : s.registry id with
  | none => rfl
  | some m =>
    rcases h.entries id m found with low | ⟨k, few, here, -⟩
    · omega
    · omega

theorem Numbered.no_wait {s : Page} (h : Numbered s) {id : ℕ}
    (client : s.made = 0 ∨ id < 2 ^ 20 ∨ 2 ^ 20 + s.made ≤ id) (n : DomNode) :
    waitsForOther s.pending id n = false := by
  unfold waitsForOther
  rw [List.any_eq_false]
  intro p hp
  split
  · rename_i i tag parent command
    obtain ⟨few, here⟩ := h.waiting p hp i tag parent command
    have apart : ¬ i = id := by omega
    simp [apart]
  · exact Bool.false_ne_true

theorem Numbered.give {s : Page} (h : Numbered s) {id : ℕ} (host : s.nextNode ≤ id)
    (client : s.made = 0 ∨ id < 2 ^ 20 ∨ 2 ^ 20 + s.made ≤ id) (n : DomNode) : s.give id n = s := by
  unfold Page.give
  rw [h.no_entry host client, h.no_wait client, Bool.or_false, Bool.or_false]

theorem Owned.erase {nextNode made : ℕ} {registry : ℕ → Option DomNode} (h : Owned nextNode made registry) (id : ℕ) :
    Owned nextNode made (Function.update registry id none) := by
  intro i n entry
  by_cases here : i = id
  · rw [here, Function.update_self] at entry
    cases entry
  · rw [Function.update_of_ne here] at entry
    exact h i n entry

def created : TextOp → ℕ
  | .create _ _ => 1
  | _ => 0

theorem Numbered.nextId {s : Page} (h : Numbered s) (high : 2 ^ 20 ≤ s.dom.nextId.toNat) :
    s.dom.nextId.toNat = 2 ^ 20 + s.made ∧ s.made < 2 ^ 32 - 2 ^ 20 := by
  have bound := h.bound
  have value : s.dom.nextId.toNat = (2 ^ 20 + s.made) % 2 ^ 32 := by
    rw [h.counter, UInt32.toNat_ofNat']
  omega

def Page.queued (s : Page) (op : TextOp) : Page :=
  { s with
    made := s.made + created op
    dom := op.run s.dom
    pending := s.pending ++ ((opCmd s.dom op).map fun c => (s.made, c)).toList }

end Cerco.NodeIds
