import Cerco.ByteMemory
import Cerco.ClientFetch
import Cerco.ClientHeap
import Cerco.LittleEndian

set_option autoImplicit false

/-!
# Props of the hydration roots

The host stages the name and the props of each root at the scratch base, both
behind their lengths, and the mount function gets a pointer to the props as a C
string. What a mount call does to memory is left open.
-/
namespace Cerco.HydrateProps
open Cerco.ByteMemory Cerco.CString Cerco.LittleEndian
open Cerco.ClientFetch (strstr)
open Cerco.ClientReply (scratchSize)
open Cerco.ClientHeap (wrap32)

/-- An entry of the host's `rootMeta`, encoded. -/
structure Root where
  name : Bytes
  props : Bytes
deriving DecidableEq

/-- The scratch region, the end of the memory, and `cerco_components_table`. -/
structure Client where
  scratch : ℕ
  stop : ℕ
  components : List Bytes
  mapped : scratch + scratchSize ≤ stop

/-- `[u32 name_len][name][u32 props_len][props]` -/
def Root.record (r : Root) : Bytes :=
  lePut 4 r.name.length ++ (r.name ++ (lePut 4 r.props.length ++ r.props))

def Root.need (r : Root) : ℕ := 4 + r.name.length + 4 + r.props.length

def findComponent (c : Client) (name : Bytes) : Option ℕ := c.components.findIdx? fun n => n == name

/-- `cerco_hydrate_root`: the component whose mount function is called, and the pointer it gets. -/
def cercoHydrateRoot (c : Client) (m : Mem) : Option (ℕ × ℕ) :=
  let nameLen := leGet (m.load c.scratch 4)
  if 128 < nameLen then none
  else
    let propsLen := leGet (m.load (c.scratch + 4 + nameLen) 4)
    let props := c.scratch + 4 + nameLen + 4
    if 65536 - 16 < wrap32 (4 + nameLen + 4 + propsLen) then none
    else (findComponent c (m.load (c.scratch + 4) nameLen)).map fun component => (component, props)

/-- `hydrateRoot` of the host: the memory in which a mount function is called, if one is. -/
def hydrateRoot (c : Client) (m : Mem) (r : Root) : Mem × Option (ℕ × ℕ) :=
  if scratchSize < r.need then (m, none)
  else (m.write c.scratch r.record, cercoHydrateRoot c (m.write c.scratch r.record))

structure Mounted where
  root : Root
  component : ℕ
  props : Option Bytes
deriving DecidableEq

/-- The memory after root `i`. -/
def afterRoot (c : Client) (mount : ℕ → Mem → Mem) (i : ℕ) (m : Mem) (r : Root) : Mem :=
  match hydrateRoot c m r with
  | (staged, none) => staged
  | (staged, some _) => mount i staged

def mounted (c : Client) (m : Mem) (r : Root) : Option Mounted :=
  match hydrateRoot c m r with
  | (_, none) => none
  | (staged, some (component, p)) => some ⟨r, component, staged.string p (c.stop - p)⟩

/-- `hydrate_roots`: the mount calls for the roots of a page, from root `i` on. -/
def hydrateRoots (c : Client) (mount : ℕ → Mem → Mem) : ℕ → Mem → List Root → List Mounted
  | _, _, [] => []
  | i, m, r :: rest =>
    (mounted c m r).toList ++ hydrateRoots c mount (i + 1) (afterRoot c mount i m r) rest

/-- `pat`, unless the key is too long. -/
def keyPattern (key : Bytes) : Option Bytes :=
  if 128 ≤ key.length + 4 then none else some (ascii "\"" ++ key ++ ascii "\":")

def jsonField (json key : Bytes) : Option Bytes :=
  match keyPattern key with
  | none => none
  | some pat => (strstr pat json).map fun cut => cut.2.dropWhile (· == 32)

def isDigit (c : UInt8) : Bool := 48 ≤ c && c ≤ 57

/-- `v = v * 10 + (*p - '0')` over the digits; it wraps like the `i32` of wasm. -/
def jsonDigits (v : Int32) : Bytes → Int32
  | [] => v
  | c :: s => if isDigit c then jsonDigits (v * 10 + Int32.ofNat (c.toNat - 48)) s else v

def cercoJsonInt (json key : Bytes) (dflt : Int32) : Int32 :=
  match jsonField json key with
  | none => dflt
  | some (45 :: s) => if isDigit (s.headD 0) then -jsonDigits 0 s else dflt
  | some s => if isDigit (s.headD 0) then jsonDigits 0 s else dflt

/-- The copy loop of `cerco_json_str`, up to the closing quote. -/
def jsonChars (cap : ℕ) (buf : Bytes) : Bytes → Option Bytes
  | [] => none
  | c :: s =>
    if c = 34 then some buf
    else if cap ≤ buf.length + 1 then none
    else jsonChars cap (buf ++ [c]) s

def cercoJsonStr (json key : Bytes) (cap : ℕ) : Option Bytes :=
  if cap < 1 then none
  else
    match jsonField json key with
    | some (34 :: s) => jsonChars cap [] s
    | _ => none

/-- The mount function got its own root's props, and so the helpers read from these only. -/
structure OwnProps (m : Mounted) : Prop where
  text : m.props = some m.root.props
  ints : ∀ key dflt, m.props.map (fun json => cercoJsonInt json key dflt) =
    some (cercoJsonInt m.root.props key dflt)
  strs : ∀ key cap, m.props.map (fun json => cercoJsonStr json key cap) =
    some (cercoJsonStr m.root.props key cap)

structure Mountable (c : Client) (r : Root) : Prop where
  name : r.name.length ≤ 128
  need : r.need ≤ 65536 - 16
  known : (findComponent c r.name).isSome = true

/-- The props have no NUL, and one stands in memory behind where they will be. -/
def Terminated (c : Client) (m : Mem) (r : Root) : Prop := 0 ∉ r.props ∧ m (c.scratch + r.need) = 0

/-- Every root that is mounted finds a NUL behind its record. -/
def AllTerminated (c : Client) (mount : ℕ → Mem → Mem) : ℕ → Mem → List Root → Prop
  | _, _, [] => True
  | i, m, r :: rest =>
    (Mountable c r → Terminated c m r) ∧ AllTerminated c mount (i + 1) (afterRoot c mount i m r) rest

theorem ownProps_iff (m : Mounted) : OwnProps m ↔ m.props = some m.root.props := by
  constructor
  · exact OwnProps.text
  · intro h
    exact ⟨h, fun key dflt => by rw [h]; rfl, fun key cap => by rw [h]; rfl⟩

theorem record_length (r : Root) : r.record.length = r.need := by
  simp only [Root.record, Root.need, List.length_append, lePut_length]
  omega

section
variable (m : Mem) (a : ℕ) (r : Root)

theorem staged_nameLen : (m.write a r.record).load a 4 = lePut 4 r.name.length := by
  have part := load_write_part m a [] (lePut 4 r.name.length) (r.name ++ (lePut 4 r.props.length ++ r.props))
  rw [lePut_length] at part
  exact part

theorem staged_name : (m.write a r.record).load (a + 4) r.name.length = r.name := by
  have part := load_write_part m a (lePut 4 r.name.length) r.name (lePut 4 r.props.length ++ r.props)
  rw [lePut_length] at part
  exact part

theorem staged_propsLen :
    (m.write a r.record).load (a + 4 + r.name.length) 4 = lePut 4 r.props.length := by
  have part := load_write_part m a (lePut 4 r.name.length ++ r.name) (lePut 4 r.props.length) r.props
  rw [List.length_append, lePut_length, lePut_length, List.append_assoc, ← Nat.add_assoc] at part
  exact part

theorem staged_props :
    (m.write a r.record).load (a + 4 + r.name.length + 4) r.props.length = r.props := by
  have part := load_write_part m a (lePut 4 r.name.length ++ (r.name ++ lePut 4 r.props.length)) r.props []
  have start : a + (lePut 4 r.name.length ++ (r.name ++ lePut 4 r.props.length)).length =
      a + 4 + r.name.length + 4 := by
    simp only [List.length_append, lePut_length]
    omega
  rw [start] at part
  simp only [List.append_assoc, List.append_nil] at part
  exact part

end

theorem staged_behind (m : Mem) (a : ℕ) (r : Root) : (m.write a r.record) (a + r.need) = m (a + r.need) :=
  write_outside m r.record (.inr (by rw [record_length]))

theorem cercoHydrateRoot_staged (c : Client) (m : Mem) {r : Root} (fits : r.need ≤ scratchSize) :
    cercoHydrateRoot c (m.write c.scratch r.record) =
      if r.name.length ≤ 128 ∧ r.need ≤ 65536 - 16 then
        (findComponent c r.name).map fun component =>
          (component, c.scratch + 4 + r.name.length + 4)
      else none := by
  unfold Root.need scratchSize at fits
  have name : leGet (lePut 4 r.name.length) = r.name.length := leGet_lePut_of_lt (by omega)
  have props : leGet (lePut 4 r.props.length) = r.props.length := leGet_lePut_of_lt (by omega)
  have sum : wrap32 (4 + r.name.length + 4 + r.props.length) = r.need := Nat.mod_eq_of_lt (by omega)
  unfold cercoHydrateRoot
  simp only [staged_nameLen, name, staged_name, staged_propsLen, props, sum]
  by_cases long : 128 < r.name.length
  · rw [if_pos long, if_neg (by omega)]
  · rw [if_neg long]
    by_cases big : 65536 - 16 < r.need
    · rw [if_pos big, if_neg (by omega)]
    · rw [if_neg big, if_pos (by omega)]

theorem staged_string (c : Client) (m : Mem) {r : Root} (small : r.need ≤ 65536 - 16) :
    (m.write c.scratch r.record).string (c.scratch + 4 + r.name.length + 4)
      (c.stop - (c.scratch + 4 + r.name.length + 4)) = some r.props ↔ Terminated c m r := by
  have room := c.mapped
  have ends : c.scratch + 4 + r.name.length + 4 + r.props.length = c.scratch + r.need := by
    unfold Root.need
    omega
  unfold scratchSize at room
  rw [string_eq_some, staged_props, ends, staged_behind]
  constructor
  · rintro ⟨_, _, free, nul⟩
    exact ⟨free, nul⟩
  · rintro ⟨free, nul⟩
    exact ⟨by omega, rfl, free, nul⟩

/-- A root is mounted exactly if it is mountable, and then gets its props exactly if a NUL
stands behind its record. -/
theorem mounted_own (c : Client) (m : Mem) (r : Root) :
    (∀ k ∈ mounted c m r, OwnProps k) ↔ (Mountable c r → Terminated c m r) := by
  unfold mounted hydrateRoot
  by_cases big : scratchSize < r.need
  · rw [if_pos big]
    have never : ¬ Mountable c r := by
      intro h
      have small := h.need
      unfold scratchSize at big
      omega
    exact ⟨fun _ h => absurd h never, fun _ k hk => by cases hk⟩
  · rw [if_neg big, cercoHydrateRoot_staged c m (Nat.le_of_not_lt big)]
    by_cases limits : r.name.length ≤ 128 ∧ r.need ≤ 65536 - 16
    · rw [if_pos limits]
      cases known : findComponent c r.name with
      | none =>
        refine ⟨fun _ h => ?_, fun _ k hk => by cases hk⟩
        have yes := h.known
        rw [known] at yes
        cases yes
      | some component =>
        have able : Mountable c r := ⟨limits.1, limits.2, by rw [known]; rfl⟩
        constructor
        · intro h _
          exact (staged_string c m limits.2).mp (h _ rfl).text
        · intro h k hk
          obtain rfl := Option.some.inj hk
          exact (ownProps_iff _).mpr ((staged_string c m limits.2).mpr (h able))
    · rw [if_neg limits]
      exact ⟨fun _ h => absurd ⟨h.name, h.need⟩ limits, fun _ k hk => by cases hk⟩

/-- Each component of a page sees its own props and nothing else exactly if every root that is
mounted has props without a NUL and finds one in memory behind its record. -/
theorem components_see_own_props (c : Client) (mount : ℕ → Mem → Mem) (i : ℕ) (m : Mem)
    (roots : List Root) :
    (∀ k ∈ hydrateRoots c mount i m roots, OwnProps k) ↔ AllTerminated c mount i m roots := by
  induction roots generalizing i m with
  | nil => exact ⟨fun _ => trivial, fun _ k hk => by cases hk⟩
  | cons r rest ih =>
    rw [AllTerminated, ← mounted_own, ← ih, hydrateRoots]
    constructor
    · intro h
      exact ⟨fun k hk => h k (List.mem_append_left _ (Option.mem_toList.mpr hk)),
        fun k hk => h k (List.mem_append_right _ hk)⟩
    · rintro ⟨first, others⟩ k hk
      obtain hk | hk := List.mem_append.mp hk
      · exact first k (Option.mem_toList.mp hk)
      · exact others k hk

def counterClient : Client := ⟨1024, 200000, [ascii "counter"], by decide⟩

/-- The second root has no start of its own. -/
def counterPage : List Root :=
  [⟨ascii "counter", ascii "\x7b\"a\":1,\"start\":5\x7d"⟩, ⟨ascii "counter", ascii "\x7b\x7d"⟩]

/-- The second root counts from the start of the first. -/
theorem earlier_props_leak :
    ¬ ∀ k ∈ hydrateRoots counterClient (fun _ m => m) 0 (fun _ => 0) counterPage, OwnProps k := by
  intro h
  have run : ∀ k ∈ (hydrateRoots counterClient (fun _ m => m) 0 (fun _ => 0) counterPage)[1]?,
      k.props.map (fun json => cercoJsonInt json (ascii "start") 0) = some 5 ∧
        cercoJsonInt k.root.props (ascii "start") 0 = 0 := by
    decide +kernel
  have second : ((hydrateRoots counterClient (fun _ m => m) 0 (fun _ => 0) counterPage)[1]?).isSome := by
    decide +kernel
  obtain ⟨k, hk⟩ := Option.isSome_iff_exists.mp second
  obtain ⟨leaked, own⟩ := run k hk
  have read := (h k (List.mem_of_getElem? hk)).ints (ascii "start") 0
  rw [leaked, own] at read
  exact absurd (Option.some.inj read) (by decide)

end Cerco.HydrateProps
