import Mathlib.Data.List.Basic

set_option autoImplicit false

/-!
# A memory of bytes

Stores, loads and the two directions in which a block can be moved.
-/
namespace Cerco.ByteMemory

abbrev Mem := ℕ → UInt8

def Mem.set (m : Mem) (a : ℕ) (b : UInt8) : Mem := fun x => if x = a then b else m x

/-- The bytes one after the other, from `a` on. -/
def Mem.write (m : Mem) (a : ℕ) : List UInt8 → Mem
  | [] => m
  | b :: bs => (m.set a b).write (a + 1) bs

def Mem.load (m : Mem) (a : ℕ) : ℕ → List UInt8
  | 0 => []
  | n + 1 => m a :: m.load (a + 1) n

/-- `while (n--) *dst++ = *src++` -/
def Mem.copyUp (m : Mem) (dst src : ℕ) : ℕ → Mem
  | 0 => m
  | n + 1 => (m.set dst (m src)).copyUp (dst + 1) (src + 1) n

/-- `while (n--) *--dst = *--src`, from the ends. -/
def Mem.copyDown (m : Mem) (dst src : ℕ) : ℕ → Mem
  | 0 => m
  | n + 1 => (m.set (dst + n) (m (src + n))).copyDown dst src n

def Mem.move (m : Mem) (dst src n : ℕ) : Mem :=
  if dst < src then m.copyUp dst src n else m.copyDown dst src n

@[simp] theorem load_length (m : Mem) (a n : ℕ) : (m.load a n).length = n := by
  induction n generalizing a with
  | zero => rfl
  | succ n ih => rw [Mem.load, List.length_cons, ih]

theorem load_append (m : Mem) (a i j : ℕ) : m.load a (i + j) = m.load a i ++ m.load (a + i) j := by
  induction i generalizing a with
  | zero => rw [Nat.zero_add, Nat.add_zero]; rfl
  | succ i ih =>
    rw [Nat.add_right_comm, Mem.load, Mem.load, ih, List.cons_append, Nat.add_right_comm a 1 i,
      Nat.add_assoc a i 1]

theorem load_congr {m m' : Mem} {a n : ℕ} (h : ∀ x, a ≤ x → x < a + n → m x = m' x) :
    m.load a n = m'.load a n := by
  induction n generalizing a with
  | zero => rfl
  | succ n ih =>
    rw [Mem.load, Mem.load, h a (Nat.le_refl a) (by omega)]
    exact congrArg _ (ih fun x lo hi => h x (by omega) (by omega))

theorem mem_load {m : Mem} {a n : ℕ} {b : UInt8} : b ∈ m.load a n ↔ ∃ j < n, m (a + j) = b := by
  induction n generalizing a with
  | zero => simp [Mem.load]
  | succ n ih =>
    rw [Mem.load, List.mem_cons, ih]
    constructor
    · rintro (rfl | ⟨j, hj, rfl⟩)
      · exact ⟨0, Nat.succ_pos n, rfl⟩
      · exact ⟨j + 1, Nat.succ_lt_succ hj, by rw [Nat.add_right_comm, Nat.add_assoc]⟩
    · rintro ⟨j, hj, rfl⟩
      cases j with
      | zero => exact .inl rfl
      | succ j => exact .inr ⟨j, Nat.lt_of_succ_lt_succ hj, by rw [Nat.add_right_comm, Nat.add_assoc]⟩

theorem write_outside (m : Mem) {a x : ℕ} (bs : List UInt8) (h : x < a ∨ a + bs.length ≤ x) :
    m.write a bs x = m x := by
  induction bs generalizing m a with
  | nil => rfl
  | cons b bs ih =>
    rw [List.length_cons] at h
    rw [Mem.write, ih _ (by omega)]
    exact if_neg (by omega)

theorem load_write (m : Mem) (a : ℕ) (bs : List UInt8) : (m.write a bs).load a bs.length = bs := by
  induction bs generalizing m a with
  | nil => rfl
  | cons b bs ih =>
    rw [Mem.write, List.length_cons, Mem.load, ih, write_outside _ bs (Or.inl (Nat.lt_succ_self a))]
    exact congrArg (· :: bs) (if_pos rfl)

theorem write_append (m : Mem) (a : ℕ) (bs cs : List UInt8) :
    m.write a (bs ++ cs) = (m.write a bs).write (a + bs.length) cs := by
  induction bs generalizing m a with
  | nil => rfl
  | cons b bs ih =>
    rw [List.cons_append, Mem.write, ih, List.length_cons, Nat.add_right_comm, Nat.add_assoc]
    rfl

theorem load_write_behind (m : Mem) (a n : ℕ) (bs : List UInt8) :
    (m.write (a + n) bs).load a (n + bs.length) = m.load a n ++ bs := by
  rw [load_append, load_write]
  exact congrArg (· ++ bs) (load_congr fun x _ hi => write_outside m bs (.inl hi))

theorem load_write_front (m : Mem) (a k : ℕ) (bs : List UInt8) :
    (m.write a bs).load a (bs.length + k) = bs ++ m.load (a + bs.length) k := by
  rw [load_append, load_write]
  exact congrArg (bs ++ ·) (load_congr fun x lo _ => write_outside m bs (.inr lo))

theorem load_write_part (m : Mem) (a : ℕ) (xs ys zs : List UInt8) :
    (m.write a (xs ++ (ys ++ zs))).load (a + xs.length) ys.length = ys := by
  rw [write_append, write_append]
  exact (load_congr fun x _ hi => write_outside _ zs (.inl hi)).trans (load_write _ _ ys)

/-- The C string at `p`, if it ends within `n` bytes. -/
def Mem.string (m : Mem) (p : ℕ) : ℕ → Option (List UInt8)
  | 0 => none
  | n + 1 => if m p = 0 then some [] else (m.string (p + 1) n).map fun text => m p :: text

theorem string_eq_some {m : Mem} {p n : ℕ} {text : List UInt8} :
    m.string p n = some text ↔
      text.length < n ∧ m.load p text.length = text ∧ 0 ∉ text ∧ m (p + text.length) = 0 := by
  induction text generalizing p n with
  | nil =>
    cases n with
    | zero => simp [Mem.string]
    | succ n =>
      rw [Mem.string]
      split
      · simp [Mem.load, *]
      · simp [*]
  | cons b text ih =>
    cases n with
    | zero => simp [Mem.string]
    | succ n =>
      rw [Mem.string, List.length_cons, Mem.load]
      by_cases stop : m p = 0
      · rw [if_pos stop]
        constructor
        · intro h
          cases h
        · rintro ⟨_, same, free, _⟩
          have first := (List.cons.inj same).1
          exact absurd (List.mem_cons.mpr (.inl (stop.symm.trans first))) free
      · rw [if_neg stop, Option.map_eq_some_iff]
        constructor
        · rintro ⟨rest, hrest, same⟩
          obtain ⟨first, rfl⟩ := List.cons.inj same
          obtain ⟨short, loaded, free, ends⟩ := ih.mp hrest
          refine ⟨by omega, by rw [loaded, first], ?_, by rw [← ends]; congr 1; omega⟩
          exact fun h => (List.mem_cons.mp h).elim (fun z => stop (first.trans z.symm)) free
        · rintro ⟨short, same, free, ends⟩
          obtain ⟨first, loaded⟩ := List.cons.inj same
          refine ⟨text, ih.mpr ⟨by omega, loaded, fun h => free (List.mem_cons_of_mem b h), ?_⟩, by rw [first]⟩
          rw [← ends]
          congr 1
          omega

theorem copyUp_outside (m : Mem) {dst src n x : ℕ} (h : x < dst ∨ dst + n ≤ x) :
    m.copyUp dst src n x = m x := by
  induction n generalizing m dst src with
  | zero => rfl
  | succ n ih =>
    rw [Mem.copyUp, ih _ (by omega)]
    exact if_neg (by omega)

theorem copyUp_inside (m : Mem) {dst src n i : ℕ} (h : src + i < dst) (hi : i < n) :
    m.copyUp dst src n (dst + i) = m (src + i) := by
  induction n generalizing m dst src i with
  | zero => omega
  | succ n ih =>
    rw [Mem.copyUp]
    cases i with
    | zero =>
      rw [copyUp_outside _ (.inl (by omega))]
      exact if_pos rfl
    | succ i =>
      have rest := @ih (m.set dst (m src)) (dst + 1) (src + 1) i (by omega) (by omega)
      rw [Nat.add_right_comm, Nat.add_assoc, Nat.add_right_comm src, Nat.add_assoc src] at rest
      rw [rest]
      exact if_neg (by omega)

theorem load_copyUp (m : Mem) {dst src n k : ℕ} (h : src + k ≤ dst) (hk : k ≤ n) :
    (m.copyUp dst src n).load dst k = m.load src k := by
  have block : ∀ i j, j + i = k → (m.copyUp dst src n).load (dst + j) i = m.load (src + j) i := by
    intro i
    induction i with
    | zero => intro j _; rfl
    | succ i ih =>
      intro j hj
      rw [Mem.load, Mem.load, copyUp_inside m (by omega) (by omega)]
      exact congrArg _ (ih (j + 1) (by omega))
  exact block k 0 (Nat.zero_add k)

def CopySafe (dst src n : ℕ) : Prop := src = dst ∨ dst + n ≤ src ∨ src + n ≤ dst

instance (dst src n : ℕ) : Decidable (CopySafe dst src n) := inferInstanceAs (Decidable (_ ∨ _))

theorem copyUp_safe (m : Mem) {dst src n : ℕ} (h : CopySafe dst src n) (x : ℕ) :
    m.copyUp dst src n x = if dst ≤ x ∧ x < dst + n then m (src + (x - dst)) else m x := by
  induction n generalizing m dst src with
  | zero => exact (if_neg (by omega)).symm
  | succ n ih =>
    unfold CopySafe at h
    rw [Mem.copyUp, ih (m.set dst (m src)) (show CopySafe (dst + 1) (src + 1) n by unfold CopySafe; omega)]
    by_cases first : x = dst
    · subst first
      rw [if_neg (by omega), if_pos (by omega), Nat.sub_self]
      exact if_pos rfl
    · by_cases inside : dst ≤ x ∧ x < dst + (n + 1)
      · rw [if_pos inside, if_pos (by omega)]
        have same : src + 1 + (x - (dst + 1)) = src + (x - dst) := by omega
        rw [same]
        exact if_neg (by omega)
      · rw [if_neg inside, if_neg (by omega)]
        exact if_neg first

theorem string_congr {m m' : Mem} {p n : ℕ} {text : List UInt8} (h : m.string p n = some text)
    (same : ∀ i ≤ text.length, m' (p + i) = m (p + i)) : m'.string p n = some text := by
  obtain ⟨short, loaded, free, ends⟩ := string_eq_some.mp h
  refine string_eq_some.mpr ⟨short, ?_, free, (same _ (Nat.le_refl _)).trans ends⟩
  refine (load_congr fun x lo hi => ?_).trans loaded
  have here := same (x - p) (by omega)
  rwa [Nat.add_sub_cancel' lo] at here

theorem string_copyUp {m : Mem} {dst src n : ℕ} {text : List UInt8} (h : m.string src n = some text)
    (apart : CopySafe dst src (text.length + 1)) :
    (m.copyUp dst src (text.length + 1)).string dst n = some text ∧
      (m.copyUp dst src (text.length + 1)).string src n = some text := by
  obtain ⟨short, loaded, free, ends⟩ := string_eq_some.mp h
  have moved : ∀ i < text.length + 1, (m.copyUp dst src (text.length + 1)) (dst + i) = m (src + i) := by
    intro i hi
    rw [copyUp_safe m apart, if_pos (by omega), Nat.add_sub_cancel_left]
  constructor
  · refine string_eq_some.mpr ⟨short, ?_, free, (moved _ (Nat.lt_succ_self _)).trans ends⟩
    have block : ∀ i j, j + i = text.length →
        (m.copyUp dst src (text.length + 1)).load (dst + j) i = m.load (src + j) i := by
      intro i
      induction i with
      | zero => intro j _; rfl
      | succ i ih =>
        intro j hj
        rw [Mem.load, Mem.load, moved j (by omega)]
        exact congrArg _ (ih (j + 1) (by omega))
    exact (block text.length 0 (Nat.zero_add _)).trans loaded
  · refine string_congr h fun i hi => ?_
    rw [copyUp_safe m apart]
    split
    · obtain same | away := apart
      · rw [same, Nat.add_sub_cancel_left]
      · omega
    · rfl

theorem copyDown_outside (m : Mem) {dst src n x : ℕ} (h : x < dst ∨ dst + n ≤ x) :
    m.copyDown dst src n x = m x := by
  induction n generalizing m with
  | zero => rfl
  | succ n ih =>
    rw [Mem.copyDown, ih _ (by omega)]
    exact if_neg (by omega)

theorem copyDown_inside (m : Mem) {dst src n : ℕ} (h : src ≤ dst) {i : ℕ} (hi : i < n) :
    m.copyDown dst src n (dst + i) = m (src + i) := by
  induction n generalizing m with
  | zero => omega
  | succ n ih =>
    rw [Mem.copyDown]
    by_cases last : i = n
    · subst last
      rw [copyDown_outside _ (Or.inr (Nat.le_refl _))]
      exact if_pos rfl
    · rw [ih _ (by omega)]
      exact if_neg (by omega)

theorem load_move_up (m : Mem) {dst src : ℕ} (h : src ≤ dst) (n : ℕ) :
    (m.move dst src n).load dst n = m.load src n := by
  rw [Mem.move, if_neg (by omega)]
  have block : ∀ k j, j + k = n →
      (m.copyDown dst src n).load (dst + j) k = m.load (src + j) k := by
    intro k
    induction k with
    | zero => intro j _; rfl
    | succ k ih =>
      intro j hj
      rw [Mem.load, Mem.load, copyDown_inside m h (by omega)]
      exact congrArg _ (ih (j + 1) (by omega))
  exact block n 0 (Nat.zero_add n)

end Cerco.ByteMemory
