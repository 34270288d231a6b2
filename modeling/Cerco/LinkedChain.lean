import Mathlib.Data.List.Basic
import Mathlib.Data.List.Nodup
import Mathlib.Logic.Function.Basic

set_option autoImplicit false

/-!
# Lists through pointers

Nodes name their neighbours by two partial maps. `Segment` relates a head pointer to the
nodes that it leads to, with the pointers that enter and leave at both ends, so that a
list can be cut at any node and put together again after a pointer was changed.
-/
namespace Cerco.LinkedChain

universe u v

variable {ι : Type u}

structure Links (ι : Type u) where
  next : ι → Option ι
  prev : ι → Option ι

/-- From `head`, whose predecessor is `before`, through `xs`; the last node is `last`, and its
successor is `after`. -/
def Segment (L : Links ι) : Option ι → Option ι → List ι → Option ι → Option ι → Prop
  | before, head, [], last, after => before = last ∧ head = after
  | before, head, x :: xs, last, after =>
    head = some x ∧ L.prev x = before ∧ Segment L (some x) (L.next x) xs last after

structure Chain (L : Links ι) (head : Option ι) (xs : List ι) : Prop where
  linked : ∃ last, Segment L none head xs last none
  once : xs.Nodup

/-- The nodes from `head` on, forward only. -/
def Stack (next : ι → Option ι) : Option ι → List ι → Prop
  | head, [] => head = none
  | head, x :: xs => head = some x ∧ Stack next (next x) xs

section Segments
variable {L M : Links ι}

theorem segment_append {before head last after : Option ι} (xs ys : List ι) :
    Segment L before head (xs ++ ys) last after ↔
      ∃ mid first, Segment L before head xs mid first ∧ Segment L mid first ys last after := by
  induction xs generalizing before head with
  | nil =>
    constructor
    · exact fun h => ⟨_, _, ⟨rfl, rfl⟩, h⟩
    · rintro ⟨_, _, ⟨rfl, rfl⟩, h⟩
      exact h
  | cons x xs ih =>
    simp only [List.cons_append, Segment, ih]
    constructor
    · rintro ⟨head, prev, mid, first, h, rest⟩
      exact ⟨mid, first, ⟨head, prev, h⟩, rest⟩
    · rintro ⟨mid, first, ⟨head, prev, h⟩, rest⟩
      exact ⟨head, prev, mid, first, h, rest⟩

theorem Segment.congr {before head last after : Option ι} {xs : List ι}
    (h : Segment L before head xs last after)
    (same : ∀ x ∈ xs, M.next x = L.next x ∧ M.prev x = L.prev x) :
    Segment M before head xs last after := by
  induction xs generalizing before head with
  | nil => exact h
  | cons x xs ih =>
    obtain ⟨e, prev, rest⟩ := h
    obtain ⟨next, prev'⟩ := same x List.mem_cons_self
    refine ⟨e, prev'.trans prev, ?_⟩
    rw [next]
    exact ih rest fun y hy => same y (List.mem_cons_of_mem x hy)

theorem Segment.last_eq {before head last after : Option ι} {xs : List ι}
    (h : Segment L before head xs last after) : last = xs.getLast?.or before := by
  induction xs generalizing before head with
  | nil => exact h.1.symm
  | cons x xs ih =>
    rw [ih h.2.2]
    cases xs with
    | nil => rfl
    | cons y ys =>
      rw [List.getLast?_cons_cons]
      cases hy : (y :: ys).getLast? with
      | none => simp at hy
      | some z => rfl

theorem Segment.head_eq {before head last after : Option ι} {xs : List ι}
    (h : Segment L before head xs last after) : head = xs.head?.or after := by
  cases xs with
  | nil => exact h.2
  | cons x xs => exact h.1

theorem Segment.redirect {before head last after : Option ι} {xs : List ι} (once : xs.Nodup)
    (h : Segment L before head xs last after) (dest : Option ι)
    (prev : ∀ x ∈ xs, M.prev x = L.prev x) (final : ∀ x ∈ xs, xs.getLast? = some x → M.next x = dest)
    (inner : ∀ x ∈ xs, xs.getLast? ≠ some x → M.next x = L.next x) :
    Segment M before (xs.head?.or dest) xs last dest := by
  induction xs generalizing before head with
  | nil => exact ⟨h.1, rfl⟩
  | cons x xs ih =>
    obtain ⟨e, prevX, rest⟩ := h
    obtain ⟨fresh, once⟩ := List.nodup_cons.mp once
    refine ⟨rfl, (prev x List.mem_cons_self).trans prevX, ?_⟩
    cases xs with
    | nil =>
      rw [final x List.mem_cons_self rfl]
      exact ⟨rest.1, rfl⟩
    | cons y ys =>
      simp only [List.getLast?_cons_cons] at final inner
      have other : (y :: ys).getLast? ≠ some x := fun last => fresh (List.mem_of_getLast? last)
      rw [inner x List.mem_cons_self other, Segment.head_eq rest]
      exact ih once rest (fun z hz => prev z (List.mem_cons_of_mem x hz))
        (fun z hz => final z (List.mem_cons_of_mem x hz)) fun z hz => inner z (List.mem_cons_of_mem x hz)

theorem Segment.reback {before head last after : Option ι} {x : ι} {xs : List ι}
    (h : Segment L before head (x :: xs) last after) (dest : Option ι) (first : M.prev x = dest)
    (next : M.next x = L.next x) (same : ∀ y ∈ xs, M.next y = L.next y ∧ M.prev y = L.prev y) :
    Segment M dest head (x :: xs) last after := by
  refine ⟨h.1, first, ?_⟩
  rw [next]
  exact Segment.congr h.2.2 same

theorem chain_nil (L : Links ι) : Chain L none [] := ⟨⟨none, rfl, rfl⟩, List.nodup_nil⟩

theorem Chain.head_eq {L : Links ι} {head : Option ι} {xs : List ι} (h : Chain L head xs) :
    head = xs.head? := by
  obtain ⟨last, linked⟩ := h.linked
  rw [Segment.head_eq linked, Option.or_none]

theorem Chain.congr {L M : Links ι} {head : Option ι} {xs : List ι} (h : Chain L head xs)
    (same : ∀ x ∈ xs, M.next x = L.next x ∧ M.prev x = L.prev x) : Chain M head xs := by
  obtain ⟨last, linked⟩ := h.linked
  exact ⟨⟨last, Segment.congr linked same⟩, h.once⟩

theorem Segment.prev_mem {before head last after : Option ι} {xs : List ι}
    (h : Segment L before head xs last after) {x p : ι} (on : x ∈ xs) (prev : L.prev x = some p) :
    p ∈ xs ∨ before = some p := by
  induction xs generalizing before head with
  | nil => cases on
  | cons y ys ih =>
    obtain rfl | on := List.mem_cons.mp on
    · exact .inr (h.2.1.symm.trans prev)
    · obtain inner | first := ih h.2.2 on
      · exact .inl (List.mem_cons_of_mem y inner)
      · rw [Option.some.inj first]
        exact .inl List.mem_cons_self

theorem Chain.prev_mem {head : Option ι} {xs : List ι} (h : Chain L head xs) {x p : ι} (on : x ∈ xs)
    (prev : L.prev x = some p) : p ∈ xs := by
  obtain ⟨last, linked⟩ := h.linked
  exact (Segment.prev_mem linked on prev).resolve_right (fun e => (by cases e))

theorem Segment.stack {before head last : Option ι} {xs : List ι} (h : Segment L before head xs last none) :
    Stack L.next head xs := by
  induction xs generalizing before head with
  | nil => exact h.2
  | cons x xs ih => exact ⟨h.1, ih h.2.2⟩

theorem Chain.stack {head : Option ι} {xs : List ι} (h : Chain L head xs) : Stack L.next head xs := by
  obtain ⟨last, linked⟩ := h.linked
  exact Segment.stack linked

theorem Stack.congr {next next' : ι → Option ι} {head : Option ι} {xs : List ι} (h : Stack next head xs)
    (same : ∀ x ∈ xs, next' x = next x) : Stack next' head xs := by
  induction xs generalizing head with
  | nil => exact h
  | cons x xs ih =>
    refine ⟨h.1, ?_⟩
    rw [same x List.mem_cons_self]
    exact ih h.2 fun y hy => same y (List.mem_cons_of_mem x hy)

theorem Stack.head_eq {next : ι → Option ι} {head : Option ι} {xs : List ι} (h : Stack next head xs) :
    head = xs.head? := by
  cases xs with
  | nil => exact h
  | cons x xs => exact h.1

end Segments

section Walk
variable {S : Type v} {next : S → ι → Option ι} {visit : ι → S → S}

/-- Visit the nodes from `head` on; `none` when the fuel does not reach the end. The list holds the
nodes that were visited. -/
def walk (next : S → ι → Option ι) (visit : ι → S → S) : ℕ → Option ι → S → Option (List ι × S)
  | _, none, s => some ([], s)
  | 0, some _, _ => none
  | fuel + 1, some x, s =>
    let after := next s x
    (walk next visit fuel after (visit x s)).map fun p => (x :: p.1, p.2)

theorem walk_visits {I : List ι → S → Prop} (keep : ∀ x ys s, I (x :: ys) s → I ys (visit x s) ∧
      ∀ y ∈ ys, next (visit x s) y = next s y) {xs : List ι} {head : Option ι} {s : S}
    (h : Stack (next s) head xs) (hI : I xs s) {fuel : ℕ} (enough : xs.length ≤ fuel) :
    walk next visit fuel head s = some (xs, xs.foldl (fun s x => visit x s) s) := by
  induction xs generalizing head s fuel with
  | nil =>
    rw [show head = none from h]
    cases fuel <;> rfl
  | cons x xs ih =>
    obtain ⟨rfl, rest⟩ := h
    cases fuel with
    | zero => cases enough
    | succ fuel =>
      obtain ⟨kept, same⟩ := keep x xs s hI
      rw [walk, ih (Stack.congr rest same) kept (Nat.le_of_succ_le_succ enough)]
      rfl

end Walk

section Edits
variable [DecidableEq ι]

def Links.setNext (L : Links ι) (x : ι) (dest : Option ι) : Links ι :=
  { L with next := Function.update L.next x dest }

def Links.setPrev (L : Links ι) (x : ι) (dest : Option ι) : Links ι :=
  { L with prev := Function.update L.prev x dest }

structure Headed (ι : Type u) where
  links : Links ι
  head : Option ι

/-- Put `x` in front. -/
def pushFront (E : Headed ι) (x : ι) : Headed ι :=
  let L := (E.links.setNext x E.head).setPrev x none
  let L := match E.head with
    | some y => L.setPrev y (some x)
    | none => L
  ⟨L, some x⟩

/-- Take `x` out, through the pointers of its neighbours. -/
def unlink (E : Headed ι) (x : ι) : Headed ι :=
  let E := match E.links.prev x with
    | some p => { E with links := E.links.setNext p (E.links.next x) }
    | none => if E.head = some x then { E with head := E.links.next x } else E
  let E := match E.links.next x with
    | some n => { E with links := E.links.setPrev n (E.links.prev x) }
    | none => if E.head = some x then { E with head := none } else E
  { E with links := (E.links.setPrev x none).setNext x none }

theorem unlink_eq {E : Headed ι} {x : ι} {p n : Option ι} (prev : E.links.prev x = p)
    (next : E.links.next x = n) (front : E.head = some x ↔ p = none) (before : p ≠ some x) :
    unlink E x = ⟨⟨fun z => if z = x then none else if p = some z then n else E.links.next z,
      fun z => if z = x then none else if n = some z then p else E.links.prev z⟩,
      if p = none then n else E.head⟩ := by
  unfold unlink
  rw [prev]
  cases p with
  | none =>
    dsimp only
    rw [if_pos (front.mpr rfl), next]
    cases n <;> simp [Links.setNext, Links.setPrev, prev, funext_iff, Function.update_apply, eq_comm]
  | some q =>
    have inner : E.head ≠ some x := fun e => (by cases front.mp e)
    have apart : x ≠ q := fun e => before (congrArg some e.symm)
    have kept : Function.update E.links.next q (E.links.next x) x = n := by
      rw [Function.update_of_ne apart, next]
    dsimp only [Links.setNext]
    rw [kept]
    cases n <;>
      simp [Links.setPrev, funext_iff, Function.update_apply, prev, next, inner, eq_comm]

theorem pushFront_eq (E : Headed ι) (x : ι) :
    pushFront E x = ⟨⟨fun z => if z = x then E.head else E.links.next z,
      fun z => if E.head = some z then some x else if z = x then none else E.links.prev z⟩, some x⟩ := by
  unfold pushFront
  cases E.head <;> simp [Links.setNext, Links.setPrev, funext_iff, Function.update_apply, eq_comm]

theorem Chain.push {E : Headed ι} {xs : List ι} (h : Chain E.links E.head xs) {x : ι} (new : x ∉ xs) :
    Chain (pushFront E x).links (pushFront E x).head (x :: xs) := by
  obtain ⟨last, linked⟩ := h.linked
  have head := h.head_eq
  have first : ∀ z, E.head = some z → z ∈ xs := fun z e => List.mem_of_head? (head ▸ e)
  rw [pushFront_eq]
  refine ⟨?_, List.nodup_cons.mpr ⟨new, h.once⟩⟩
  cases xs with
  | nil => exact ⟨some x, rfl, by simp [head], by simp [head, Segment]⟩
  | cons y ys =>
    obtain ⟨fresh, -⟩ := List.nodup_cons.mp h.once
    refine ⟨last, rfl, ?_, ?_⟩
    · dsimp only
      rw [if_neg fun e => new (first x e), if_pos rfl]
    · dsimp only
      rw [if_pos rfl]
      refine Segment.reback linked (some x) ?_ ?_ fun z hz => ⟨?_, ?_⟩
      · exact if_pos head
      · exact if_neg (fun e : y = x => new (e ▸ List.mem_cons_self))
      · exact if_neg (fun e : z = x => new (e ▸ List.mem_cons_of_mem y hz))
      · have inner : E.head ≠ some z := fun e => by
          rw [head, List.head?_cons, Option.some.injEq] at e
          exact fresh (e ▸ hz)
        dsimp only
        rw [if_neg inner, if_neg (fun e : z = x => new (e ▸ List.mem_cons_of_mem y hz))]

theorem Chain.unlink_between {E : Headed ι} {x : ι} {xs ys : List ι}
    (h : Chain E.links E.head (xs ++ x :: ys)) :
    Chain (unlink E x).links (unlink E x).head (xs ++ ys) := by
  obtain ⟨last, linked⟩ := h.linked
  obtain ⟨mid, first, front, rfl, prev, back⟩ := (segment_append xs (x :: ys)).mp linked
  obtain ⟨onceX, once, apart⟩ := List.nodup_append'.mp h.once
  obtain ⟨notY, onceY⟩ := List.nodup_cons.mp once
  have notX : x ∉ xs := fun hx => apart hx List.mem_cons_self
  have mid_eq : mid = xs.getLast? := by rw [Segment.last_eq front, Option.or_none]
  have next_eq : E.links.next x = ys.head? := by rw [Segment.head_eq back, Option.or_none]
  have head_eq : E.head = xs.head?.or (some x) := Segment.head_eq front
  have inFront : ∀ {z}, mid = some z → z ∈ xs := fun e => List.mem_of_getLast? (mid_eq ▸ e)
  have behind : ∀ {z}, ys.head? = some z → z ∈ ys := fun e => List.mem_of_head? e
  have first_iff : E.head = some x ↔ mid = none := by
    rw [head_eq, mid_eq]
    cases xs with
    | nil => simp
    | cons w ws =>
      have : w ≠ x := fun e => notX (e ▸ List.mem_cons_self)
      simp [this]
  have entry : (if mid = none then ys.head? else E.head) = xs.head?.or ys.head? := by
    rw [mid_eq, head_eq]
    cases xs with
    | nil => rfl
    | cons w ws => simp
  rw [unlink_eq prev next_eq first_iff fun e => notX (inFront e), entry]
  generalize hM : (⟨fun z => if z = x then none else if mid = some z then ys.head? else E.links.next z,
    fun z => if z = x then none else if ys.head? = some z then mid else E.links.prev z⟩ : Links ι) = M
  have frontX : ∀ z ∈ xs, z ≠ x ∧ ys.head? ≠ some z := fun z hz =>
    ⟨fun e => notX (e ▸ hz), fun e => apart hz (List.mem_cons_of_mem x (behind e))⟩
  have backX : ∀ z ∈ ys, z ≠ x ∧ mid ≠ some z := fun z hz =>
    ⟨fun e => notY (e ▸ hz), fun e => apart (inFront e) (List.mem_cons_of_mem x hz)⟩
  have left : Segment M none (xs.head?.or ys.head?) xs mid ys.head? := by
    subst hM
    refine Segment.redirect onceX front ys.head? (fun z hz => ?_) (fun z hz final => ?_)
      fun z hz inner => ?_
    · dsimp only
      rw [if_neg (frontX z hz).1, if_neg (frontX z hz).2]
    · dsimp only
      rw [if_neg (frontX z hz).1, mid_eq, if_pos final]
    · dsimp only
      rw [if_neg (frontX z hz).1, mid_eq, if_neg inner]
  have right : ∃ last, Segment M mid ys.head? ys last none := by
    cases ys with
    | nil => exact ⟨mid, rfl, rfl⟩
    | cons y ys =>
      obtain ⟨fresh, -⟩ := List.nodup_cons.mp onceY
      rw [next_eq] at back
      have next : ∀ z ∈ y :: ys, M.next z = E.links.next z := fun z hz => by
        subst hM
        dsimp only
        rw [if_neg (backX z hz).1, if_neg (backX z hz).2]
      refine ⟨last, Segment.reback back mid ?_ (next y List.mem_cons_self) fun z hz =>
        ⟨next z (List.mem_cons_of_mem y hz), ?_⟩⟩
      · subst hM
        dsimp only
        rw [if_neg (backX y List.mem_cons_self).1, if_pos (by rfl)]
      · have inner : (y :: ys).head? ≠ some z := fun e => by
          rw [List.head?_cons, Option.some.injEq] at e
          exact fresh (e ▸ hz)
        subst hM
        dsimp only
        rw [if_neg (backX z (List.mem_cons_of_mem y hz)).1, if_neg inner]
  obtain ⟨last, right⟩ := right
  exact ⟨⟨last, (segment_append xs ys).mpr ⟨mid, ys.head?, left, right⟩⟩, List.nodup_append'.mpr
    ⟨onceX, onceY, fun z hx hy => apart hx (List.mem_cons_of_mem x hy)⟩⟩

theorem Chain.unlink {E : Headed ι} {x : ι} {xs : List ι} (h : Chain E.links E.head xs) (on : x ∈ xs) :
    Chain (unlink E x).links (unlink E x).head (xs.erase x) := by
  obtain ⟨front, back, _, whole, rest⟩ := List.exists_erase_eq on
  rw [rest]
  exact Chain.unlink_between (whole ▸ h)

theorem unlink_next (E : Headed ι) {x z : ι} (other : z ≠ x) (apart : E.links.prev x ≠ some z) :
    (unlink E x).links.next z = E.links.next z := by
  unfold unlink
  cases prev : E.links.prev x with
  | none =>
    dsimp only [Links.setNext, Links.setPrev]
    rw [Function.update_of_ne other]
    split <;> split <;> (try split) <;> rfl
  | some p =>
    have apart : z ≠ p := fun e => apart (by rw [prev, e])
    dsimp only [Links.setNext, Links.setPrev]
    rw [Function.update_of_ne other]
    split
    · exact Function.update_of_ne apart _ _
    · split <;> exact Function.update_of_ne apart _ _

theorem pushFront_next (E : Headed ι) {x z : ι} (other : z ≠ x) :
    (pushFront E x).links.next z = E.links.next z := by
  rw [pushFront_eq]
  exact if_neg other

theorem Chain.unlink_outside {E : Headed ι} {x z : ι} {xs : List ι} (h : Chain E.links E.head xs)
    (on : x ∈ xs) (out : z ∉ xs) : (LinkedChain.unlink E x).links.next z = E.links.next z :=
  unlink_next E (fun e => out (e ▸ on)) fun prev => out (h.prev_mem on prev)

theorem Stack.push {next : ι → Option ι} {head : Option ι} {xs : List ι} (h : Stack next head xs) {x : ι}
    (new : x ∉ xs) : Stack (Function.update next x head) (some x) (x :: xs) := by
  refine ⟨rfl, ?_⟩
  rw [Function.update_self]
  exact Stack.congr h fun y hy => Function.update_of_ne (fun e : y = x => new (e ▸ hy)) _ _

end Edits

end Cerco.LinkedChain
