import Cerco.RouteScan
import Cerco.WordRuns
import Mathlib.Data.List.DropRight

set_option autoImplicit false

/-!
# The project file

`project_load` goes up to the directory with a `cerco.toml` and reads the file line by
line. Its lines are read in place; here each step has a text of its own. A file is written
as lines of the shape `key = "value"`, with blanks and a comment where these may stand.
-/
namespace Cerco.ProjectFile
open Cerco.CString Cerco.WordRuns
open Cerco.RouteScan (fit splitDir)

def newline : UInt8 := 10
def quote : UInt8 := 34
def hash : UInt8 := 35
def equals : UInt8 := 61
def bracket : UInt8 := 91

def isBlank (c : UInt8) : Bool := c == 32 || c == 9 || c == 13

def isEndBlank (c : UInt8) : Bool := isBlank c || c == newline

def trim (s : Bytes) : Bytes := (s.dropWhile isBlank).rdropWhile isEndBlank

/-- `cerco_project`, before its fields get their defaults. -/
structure Project where
  name : Bytes
  version : Bytes
  tailwindVersion : Bytes
  root : Bytes
deriving DecidableEq

def tomlAssign (p : Project) (key value : Bytes) : Project :=
  if key = ascii "name" then { p with name := fit 128 value }
  else if key = ascii "version" then { p with version := fit 64 value }
  else if key = ascii "tailwind" then { p with tailwindVersion := fit 64 value }
  else p

structure Loading where
  sectionName : Bytes
  project : Project

def unquote (val : Bytes) : Bytes :=
  if 2 ≤ val.length ∧ val.head? = some quote ∧ val.getLast? = some quote then val.tail.dropLast else val

def stripComment (val : Bytes) : Bytes :=
  match strchr hash val with
  | some (front, _) => if val.head? ≠ some quote then front else val
  | none => val

def loadPair (st : Loading) (key val : Bytes) : Loading :=
  let full := if st.sectionName = [] then key else fit 128 (st.sectionName ++ ascii "." ++ key)
  { st with project := tomlAssign st.project full (stripComment (unquote val)) }

def loadLine (st : Loading) (line : Bytes) : Loading :=
  let t := trim line
  if t = [] ∨ t.head? = some hash then st
  else if t.head? = some bracket then
    match strchr 93 t with
    | some (front, _) => { st with sectionName := fit 64 (trim front.tail) }
    | none => st
  else
    match strchr equals t with
    | none => st
    | some (key, val) => loadPair st (trim key) (trim val)

def defaultName (root : Bytes) : Bytes :=
  fit 128 (if (splitDir root).2 = [] then ascii "app" else (splitDir root).2)

def withDefaults (p : Project) : Project :=
  { p with
    name := if p.name = [] then defaultName p.root else p.name
    tailwindVersion := if p.tailwindVersion = [] then fit 64 (ascii "4.1.16") else p.tailwindVersion }

/-- What is done with the text of the file; `strtok_r` gives the lines that are not empty. -/
def loadText (root data : Bytes) : Project :=
  withDefaults ((words (· != newline) (cstr data)).foldl loadLine ⟨[], [], [], [], root⟩).project

/-- `file_exists` and `read_file` -/
structure Files where
  regular : Bytes → Bool
  read : Bytes → Option Bytes

def noToml : Bytes := ascii "no cerco.toml found (run inside a cerco project, or use `cerco new`)"

def probe (dir : Bytes) : Bytes := fit 1200 (dir ++ ascii "/cerco.toml")

/-- The loop over `depth`, with the rounds that are left: the directory and the probe behind it. -/
def searchUp (files : Files) : ℕ → ℕ → Bytes → Bytes → Except Bytes (Bytes × Bytes)
  | 0, _, dir, last => .ok (dir, last)
  | left + 1, depth, dir, _ =>
    if files.regular (probe dir) then .ok (dir, probe dir)
    else if slash ∉ dir then .error noToml
    else if (splitDir dir).1 = [] then if 0 < depth then .ok (dir, probe dir) else .error noToml
    else searchUp files left (depth + 1) (splitDir dir).1 (probe dir)

/-- `project_load` from a directory: the one it is given, or the current one. -/
def projectLoad (files : Files) (dir : Bytes) : Except Bytes Project :=
  (searchUp files 16 0 (fit 1024 dir) []).bind fun (root, path) =>
    match files.read path with
    | none => .error (ascii "cannot read " ++ path)
    | some data => .ok (loadText (fit 1024 root) data)

structure Span (ok : UInt8 → Bool) where
  bytes : Bytes
  all : bytes.all ok = true

def inLine (c : UInt8) : Bool := c != newline && c != 0

abbrev Blanks := Span isBlank

abbrev Text := Span inLine

abbrev Value := Span fun c => inLine c && c != quote

structure Key extends Span fun c => inLine c && c != equals where
  first : bytes.head?.any fun c => !isBlank c && c != hash && c != bracket
  last : bytes.getLast?.any fun c => !isBlank c

inductive Known
  | name
  | version
  | tailwind
deriving DecidableEq

def Known.key : Known → Bytes
  | .name => ascii "name"
  | .version => ascii "version"
  | .tailwind => ascii "tailwind"

def Known.size : Known → ℕ
  | .name => 128
  | .version => 64
  | .tailwind => 64

def Project.field (p : Project) : Known → Bytes
  | .name => p.name
  | .version => p.version
  | .tailwind => p.tailwindVersion

/-- `key = "value" # comment`, with blanks wherever they may stand. -/
structure Pair where
  lead : Blanks
  key : Key
  behindKey : Blanks
  front : Blanks
  value : Value
  behind : Blanks
  comment : Option Text
  short : ∀ k : Known, key.bytes = k.key → value.bytes.length < k.size

inductive TomlLine
  | blank (blanks : Blanks)
  | comment (lead : Blanks) (text : Text)
  | pair (p : Pair)

def note : Option Text → Bytes
  | none => []
  | some text => hash :: text.bytes

def Pair.bytes (p : Pair) : Bytes :=
  p.lead.bytes ++ (p.key.bytes ++ p.behindKey.bytes ++ equals :: (p.front.bytes ++
    quote :: p.value.bytes ++ quote :: (p.behind.bytes ++ note p.comment)))

def TomlLine.bytes : TomlLine → Bytes
  | .blank blanks => blanks.bytes
  | .comment lead text => lead.bytes ++ hash :: text.bytes
  | .pair p => p.bytes

def tomlText (lines : List TomlLine) : Bytes := joined newline (lines.map TomlLine.bytes)

def TomlLine.assigns (k : Known) : TomlLine → Option Pair
  | .pair p => if p.key.bytes = k.key then some p else none
  | _ => none

/-- The last line that gives a value to this key. -/
def lastPair (k : Known) (lines : List TomlLine) : Option Pair := (lines.filterMap (TomlLine.assigns k)).getLast?

def Pair.Closed (p : Pair) : Prop :=
  ∀ text, p.comment = some text → (text.bytes.rdropWhile isEndBlank).getLast? = some quote

/-- The value comes back as it was written. -/
def Pair.Kept (root : Bytes) (k : Known) (p : Pair) : Prop :=
  (hash ∉ p.value.bytes ∧ (p.comment = none ∨ p.Closed ∧ p.value.bytes.length = k.size - 1) ∧
    (p.value.bytes ≠ [] ∨ k = .version)) ∨
  (k = .name ∧ p.value.bytes.head? = some hash ∧ p.Closed ∧ p.value.bytes = defaultName root)

theorem isEndBlank_of_isBlank {c : UInt8} (h : isBlank c = true) : isEndBlank c = true := by
  rw [isEndBlank, h, Bool.true_or]

theorem rdropWhile_behind {p : UInt8 → Bool} {c : UInt8} (other : p c = false) (front rest : Bytes) :
    (front ++ c :: rest).rdropWhile p = front ++ c :: rest.rdropWhile p := by
  have stop : ((rest.reverse.dropWhile p) ++ c :: front.reverse).reverse = front ++ c :: rest.rdropWhile p := by
    rw [List.reverse_append, List.reverse_cons, List.reverse_reverse, List.append_assoc, List.singleton_append]
    rfl
  rw [List.rdropWhile, List.reverse_append, List.reverse_cons, List.append_assoc, List.singleton_append,
    List.dropWhile_append]
  split
  · rename_i empty
    rw [List.isEmpty_iff] at empty
    rw [← stop, empty, List.dropWhile_cons_of_neg (by simp [other])]
    rfl
  · exact stop

theorem trim_lead {pad : Bytes} (blank : pad.all isBlank = true) (s : Bytes) : trim (pad ++ s) = trim s := by
  rw [trim, List.dropWhile_append_of_pos (List.all_eq_true.mp blank)]
  rfl

theorem trim_blank {pad : Bytes} (blank : pad.all isBlank = true) : trim pad = [] := by
  have empty := trim_lead blank []
  rwa [List.append_nil] at empty

theorem trim_head {c : UInt8} (other : isBlank c = false) (s : Bytes) :
    trim (c :: s) = (c :: s).rdropWhile isEndBlank := by
  rw [trim, List.dropWhile_cons_of_neg (by simp [other])]

theorem rdropWhile_pad {s pad : Bytes} (last : ∀ c ∈ s.getLast?, isEndBlank c = false)
    (blank : pad.all isBlank = true) : (s ++ pad).rdropWhile isEndBlank = s := by
  have gone : pad.rdropWhile isEndBlank = [] :=
    List.rdropWhile_eq_nil_iff.mpr fun c mem => isEndBlank_of_isBlank (List.all_eq_true.mp blank c mem)
  obtain rfl | ⟨init, c, rfl⟩ := s.eq_nil_or_concat'
  · exact gone
  · have other := last c (by simp)
    rw [List.append_assoc, List.singleton_append, rdropWhile_behind other, gone]

theorem Key.split (key : Key) : ∃ c rest, key.bytes = c :: rest ∧ isBlank c = false ∧ c ≠ hash ∧ c ≠ bracket := by
  have first := key.first
  cases bytes : key.bytes with
  | nil =>
    rw [bytes] at first
    cases first
  | cons c rest =>
    rw [bytes, List.head?_cons, Option.any_some, Bool.and_eq_true, Bool.and_eq_true, Bool.not_eq_true', bne_iff_ne,
      bne_iff_ne] at first
    exact ⟨c, rest, rfl, first.1.1, first.1.2, first.2⟩

theorem Key.trim_bytes (key : Key) {pad : Bytes} (blank : pad.all isBlank = true) :
    trim (key.bytes ++ pad) = key.bytes := by
  obtain ⟨c, rest, bytes, other, _, _⟩ := key.split
  have last : ∀ d ∈ key.bytes.getLast?, isEndBlank d = false := by
    intro d mem
    have stop := key.last
    have ok := List.all_eq_true.mp key.all d (List.mem_of_getLast? mem)
    rw [Option.mem_def.mp mem, Option.any_some, Bool.not_eq_true'] at stop
    rw [Bool.and_eq_true, inLine, Bool.and_eq_true, bne_iff_ne] at ok
    rw [isEndBlank, stop, Bool.false_or, beq_eq_false_iff_ne]
    exact ok.1.1
  have start : trim (key.bytes ++ pad) = (key.bytes ++ pad).rdropWhile isEndBlank := by
    rw [bytes, List.cons_append, trim_head other]
  rw [start, rdropWhile_pad last blank]

theorem Key.no_equals (key : Key) : equals ∉ key.bytes := by
  intro mem
  have ok := List.all_eq_true.mp key.all equals mem
  cases ok

/-- What the trimmed line has behind the value. -/
def Pair.tail (p : Pair) : Bytes := (p.behind.bytes ++ note p.comment).rdropWhile isEndBlank

def Pair.quoted (p : Pair) : Bytes := quote :: p.value.bytes ++ quote :: p.tail

theorem Pair.trim_bytes (p : Pair) :
    trim p.bytes = p.key.bytes ++ p.behindKey.bytes ++ equals :: (p.front.bytes ++ p.quoted) := by
  obtain ⟨c, rest, key, other, _, _⟩ := p.key.split
  have blank : isEndBlank quote = false := by decide
  have start : ∀ more, trim (p.key.bytes ++ more) = (p.key.bytes ++ more).rdropWhile isEndBlank := by
    intro more
    rw [key, List.cons_append, trim_head other]
  rw [Pair.bytes, trim_lead p.lead.all, List.append_assoc, start]
  have behind := rdropWhile_behind blank (p.key.bytes ++ (p.behindKey.bytes ++ equals :: (p.front.bytes ++
    quote :: p.value.bytes))) (p.behind.bytes ++ note p.comment)
  simpa only [List.append_assoc, List.cons_append, Pair.quoted, Pair.tail] using behind

theorem Pair.trim_quoted (p : Pair) : trim (p.front.bytes ++ p.quoted) = p.quoted := by
  have blank : isBlank quote = false := by decide
  have endBlank : isEndBlank quote = false := by decide
  have start := trim_head blank (p.value.bytes ++ quote :: p.tail)
  rw [trim_lead p.front.all]
  refine start.trans ?_
  have stop := rdropWhile_behind endBlank (quote :: p.value.bytes) p.tail
  rw [Pair.tail, List.rdropWhile_idempotent] at stop
  exact stop

def Pair.stored (p : Pair) : Bytes := stripComment (unquote p.quoted)

theorem loadLine_pair {st : Loading} (top : st.sectionName = []) (p : Pair) :
    loadLine st p.bytes = { st with project := tomlAssign st.project p.key.bytes p.stored } := by
  obtain ⟨c, rest, key, _, noHash, noBracket⟩ := p.key.split
  have head : (p.key.bytes ++ p.behindKey.bytes ++ equals :: (p.front.bytes ++ p.quoted)).head? = some c := by
    rw [key]
    rfl
  have blank : equals ∉ p.behindKey.bytes := by
    intro mem
    have ok := List.all_eq_true.mp p.behindKey.all equals mem
    cases ok
  have free : equals ∉ p.key.bytes ++ p.behindKey.bytes := List.mem_append.not.mpr (not_or.mpr ⟨p.key.no_equals, blank⟩)
  have split : strchr equals (p.key.bytes ++ p.behindKey.bytes ++ equals :: (p.front.bytes ++ p.quoted)) =
      some (p.key.bytes ++ p.behindKey.bytes, p.front.bytes ++ p.quoted) := strchr_some.mpr ⟨rfl, free⟩
  have some_ : p.key.bytes ++ p.behindKey.bytes ++ equals :: (p.front.bytes ++ p.quoted) ≠ [] := by simp
  simp only [loadLine, p.trim_bytes, head, some_, Option.some.injEq, noHash, noBracket, or_self, if_false, split,
    loadPair, top, if_true, p.key.trim_bytes p.behindKey.all, p.trim_quoted]
  rfl

theorem loadLine_blank (st : Loading) {pad : Bytes} (blank : pad.all isBlank = true) : loadLine st pad = st := by
  rw [loadLine, trim_blank blank]
  rfl

theorem loadLine_comment (st : Loading) (lead : Blanks) (text : Bytes) :
    loadLine st (lead.bytes ++ hash :: text) = st := by
  have blank : isBlank hash = false := by decide
  have endBlank : isEndBlank hash = false := by decide
  have start : trim (lead.bytes ++ hash :: text) = hash :: text.rdropWhile isEndBlank := by
    rw [trim_lead lead.all, trim_head blank]
    exact rdropWhile_behind endBlank [] text
  rw [loadLine, start]
  rfl

theorem blank_inLine {c : UInt8} (h : isBlank c = true) : inLine c = true := by
  rw [isBlank, Bool.or_eq_true, Bool.or_eq_true, beq_iff_eq, beq_iff_eq, beq_iff_eq] at h
  obtain (rfl | rfl) | rfl := h <;> rfl

theorem Span.all_inLine {ok : UInt8 → Bool} (weaker : ∀ c, ok c = true → inLine c = true) (span : Span ok) :
    span.bytes.all inLine = true :=
  List.all_eq_true.mpr fun c mem => weaker c (List.all_eq_true.mp span.all c mem)

theorem TomlLine.all_inLine (line : TomlLine) : line.bytes.all inLine = true := by
  have blanks := fun b : Blanks => b.all_inLine fun _ => blank_inLine
  have note_ : ∀ text, (note text).all inLine = true := by
    intro text
    cases text with
    | none => rfl
    | some text => exact text.all
  cases line with
  | blank b => exact blanks b
  | comment lead text =>
    rw [TomlLine.bytes, List.all_append, blanks lead, List.all_cons, text.all]
    rfl
  | pair p =>
    have key := p.key.all_inLine fun c ok => (Bool.and_eq_true_iff.mp ok).1
    have value := p.value.all_inLine fun c ok => (Bool.and_eq_true_iff.mp ok).1
    simp only [TomlLine.bytes, Pair.bytes, List.all_append, List.all_cons, blanks, key, value, note_]
    rfl

theorem cstr_tomlText (lines : List TomlLine) : cstr (tomlText lines) = tomlText lines := by
  refine cstr_of_nulFree fun mem => ?_
  have free : ∀ ls : List TomlLine, 0 ∉ tomlText ls := by
    intro ls
    induction ls with
    | nil => exact List.not_mem_nil
    | cons l ls ih =>
      have here : 0 ∉ l.bytes := by
        intro nul
        cases List.all_eq_true.mp l.all_inLine 0 nul
      by_cases last : ls = []
      · subst last
        rwa [tomlText, List.map_singleton, joined, List.intercalate_singleton]
      · rw [tomlText, List.map_cons, joined_cons _ (by simpa using last), List.mem_append, List.mem_cons]
        rintro (nul | nul | nul)
        · exact here nul
        · cases nul
        · exact ih nul
  exact free lines mem

theorem foldl_words (st : Loading) (lines : List TomlLine) :
    (words (· != newline) (tomlText lines)).foldl loadLine st = (lines.map TomlLine.bytes).foldl loadLine st := by
  have all : ∀ w ∈ lines.map TomlLine.bytes, ∀ c ∈ w, (c != newline) = true := by
    intro w mem c inside
    obtain ⟨l, _, rfl⟩ := List.mem_map.mp mem
    have ok := List.all_eq_true.mp l.all_inLine c inside
    exact (Bool.and_eq_true_iff.mp ok).1
  have skip : (fun st w => if (!w.isEmpty) = true then loadLine st w else st) = loadLine := by
    funext st w
    cases w with
    | nil => exact (loadLine_blank st rfl).symm
    | cons c w => rfl
  rw [tomlText, words_joined (by decide) all, List.foldl_filter, skip]

theorem tomlAssign_field (p : Project) (key value : Bytes) (k : Known) :
    (tomlAssign p key value).field k = (if key = k.key then fit k.size value else p.field k) ∧
      (tomlAssign p key value).root = p.root := by
  have apart : ascii "version" ≠ ascii "name" ∧ ascii "tailwind" ≠ ascii "name" ∧
      ascii "tailwind" ≠ ascii "version" := by decide
  unfold tomlAssign
  by_cases name : key = ascii "name"
  · subst name
    cases k <;> simp [Project.field, Known.key, Known.size, apart.1.symm, apart.2.1.symm]
  by_cases version : key = ascii "version"
  · subst version
    cases k <;> simp [Project.field, Known.key, Known.size, apart.1, apart.2.2.symm]
  by_cases tailwind : key = ascii "tailwind"
  · subst tailwind
    cases k <;> simp [Project.field, Known.key, Known.size, apart.2.1, apart.2.2]
  · cases k <;> simp [Project.field, Known.key, name, version, tailwind]

theorem assigns_pair {k : Known} {lines : List TomlLine} {p : Pair} (h : lastPair k lines = some p) :
    p.key.bytes = k.key := by
  obtain ⟨line, _, assigns⟩ := List.mem_filterMap.mp (List.mem_of_getLast? h)
  cases line with
  | pair q =>
    rw [TomlLine.assigns, Option.ite_none_right_eq_some] at assigns
    obtain ⟨key, same⟩ := assigns
    rwa [Option.some.inj same] at key
  | _ => cases assigns

/-- The state behind these lines: each field has what the last line with its key stored. -/
structure Loaded (root : Bytes) (lines : List TomlLine) (st : Loading) : Prop where
  top : st.sectionName = []
  root : st.project.root = root
  field : ∀ k : Known, st.project.field k = ((lastPair k lines).map fun p => fit k.size p.stored).getD []

theorem loaded_empty (root : Bytes) : Loaded root [] ⟨[], [], [], [], root⟩ :=
  ⟨rfl, rfl, fun k => by cases k <;> rfl⟩

theorem lastPair_snoc (k : Known) (lines : List TomlLine) (line : TomlLine) :
    lastPair k (lines ++ [line]) = (line.assigns k).or (lastPair k lines) := by
  rw [lastPair, List.filterMap_append, List.getLast?_append]
  cases assigns : line.assigns k <;> simp [assigns, lastPair]

theorem Loaded.line {root : Bytes} {lines : List TomlLine} {st : Loading} (h : Loaded root lines st) (line : TomlLine) :
    Loaded root (lines ++ [line]) (loadLine st line.bytes) := by
  cases line with
  | blank b =>
    rw [TomlLine.bytes, loadLine_blank st b.all]
    exact ⟨h.top, h.root, fun k => by rw [lastPair_snoc]; exact h.field k⟩
  | comment lead text =>
    rw [TomlLine.bytes, loadLine_comment]
    exact ⟨h.top, h.root, fun k => by rw [lastPair_snoc]; exact h.field k⟩
  | pair p =>
    rw [TomlLine.bytes, loadLine_pair h.top]
    refine ⟨h.top, (tomlAssign_field _ _ _ .name).2.trans h.root, fun k => ?_⟩
    refine (tomlAssign_field st.project p.key.bytes p.stored k).1.trans ?_
    rw [lastPair_snoc, h.field, TomlLine.assigns]
    split <;> rfl

theorem loadLines_loaded (root : Bytes) (lines : List TomlLine) :
    Loaded root lines ((lines.map TomlLine.bytes).foldl loadLine ⟨[], [], [], [], root⟩) := by
  induction lines using List.reverseRecOn with
  | nil => exact loaded_empty root
  | append_singleton lines line ih =>
    rw [List.map_append, List.foldl_append, List.map_singleton, List.foldl_cons, List.foldl_nil]
    exact ih.line line

def Known.default (root : Bytes) : Known → Bytes
  | .name => defaultName root
  | .version => []
  | .tailwind => fit 64 (ascii "4.1.16")

def Known.filled (root : Bytes) (k : Known) (value : Bytes) : Bytes :=
  if fit k.size value = [] then k.default root else fit k.size value

theorem withDefaults_field (p : Project) (k : Known) :
    (withDefaults p).field k = if p.field k = [] then k.default p.root else p.field k := by
  cases k with
  | version =>
    change p.version = if p.version = [] then [] else p.version
    split
    · assumption
    · rfl
  | _ => rfl

theorem loadText_field {root : Bytes} {lines : List TomlLine} {k : Known} {p : Pair}
    (h : lastPair k lines = some p) : (loadText root (tomlText lines)).field k = k.filled root p.stored := by
  have loaded := loadLines_loaded root lines
  have field := loaded.field k
  rw [h, Option.map_some, Option.getD_some] at field
  rw [loadText, cstr_tomlText, foldl_words, withDefaults_field, loaded.root, field, Known.filled]

theorem stripComment_quote (s : Bytes) : stripComment (quote :: s) = quote :: s := by
  unfold stripComment
  split
  · exact if_neg fun other => other rfl
  · rfl

theorem ne_hash {s : Bytes} (free : hash ∉ s) : ∀ c ∈ s, (c != hash) = true :=
  fun _ mem => bne_iff_ne.mpr fun same => free (same ▸ mem)

theorem takeWhile_front {front : Bytes} (free : hash ∉ front) (rest : Bytes) :
    (front ++ hash :: rest).takeWhile (· != hash) = front := by
  rw [List.takeWhile_append_of_pos (ne_hash free), List.takeWhile_cons_of_neg (by simp), List.append_nil]

theorem stripComment_cut {val : Bytes} (other : val.head? ≠ some quote) :
    stripComment val = val.takeWhile (· != hash) := by
  unfold stripComment
  split
  · rename_i front rest split
    obtain ⟨rfl, free⟩ := strchr_some.mp split
    exact (if_pos other).trans (takeWhile_front free rest).symm
  · rename_i none
    exact (List.takeWhile_eq_self_iff.mpr (ne_hash (strchr_none.mp none))).symm

theorem Pair.no_quote (p : Pair) : quote ∉ p.value.bytes := by
  intro mem
  cases List.all_eq_true.mp p.value.all quote mem

theorem Pair.head_value (p : Pair) (rest : Bytes) (some_ : p.value.bytes ≠ []) :
    (p.value.bytes ++ rest).head? ≠ some quote := by
  obtain ⟨c, v, bytes⟩ := List.exists_cons_of_ne_nil some_
  rw [bytes, List.cons_append, List.head?_cons]
  intro same
  exact p.no_quote (by rw [bytes, Option.some.inj same]; exact List.mem_cons_self)

theorem unquote_quotes (inner : Bytes) : unquote (quote :: inner ++ [quote]) = inner := by
  have length : 2 ≤ (quote :: inner ++ [quote]).length := by
    rw [List.length_append, List.length_cons, List.length_singleton]
    omega
  rw [unquote, if_pos ⟨length, rfl, List.getLast?_concat⟩]
  exact List.dropLast_concat

theorem Pair.tail_some {p : Pair} {text : Text} (h : p.comment = some text) :
    p.tail = p.behind.bytes ++ hash :: text.bytes.rdropWhile isEndBlank := by
  rw [Pair.tail, h]
  exact rdropWhile_behind (by decide) p.behind.bytes text.bytes

theorem stored_plain {p : Pair} (h : p.comment = none) : p.stored = p.value.bytes.takeWhile (· != hash) := by
  have tail : p.tail = [] := by
    have none_ : note p.comment = [] := by rw [h]; rfl
    rw [Pair.tail, none_, List.append_nil]
    exact rdropWhile_pad (s := []) (fun c mem => nomatch mem) p.behind.all
  rw [Pair.stored, Pair.quoted, tail, unquote_quotes]
  refine stripComment_cut fun same => ?_
  exact p.no_quote (List.mem_of_head? same)

theorem stored_open {p : Pair} (h : ¬ p.Closed) : p.stored = p.quoted := by
  obtain ⟨text, open_⟩ := not_forall.mp h
  obtain ⟨some_, last⟩ := Classical.not_imp.mp open_
  have inner : unquote p.quoted = p.quoted := by
    rw [unquote, if_neg]
    rintro ⟨_, _, ends⟩
    rw [Pair.quoted, Pair.tail_some some_, List.getLast?_append_of_ne_nil _ (List.cons_ne_nil _ _),
      ← List.cons_append, List.getLast?_append_of_ne_nil _ (List.cons_ne_nil _ _)] at ends
    cases trimmed : text.bytes.rdropWhile isEndBlank with
    | nil =>
      rw [trimmed] at ends
      cases ends
    | cons c rest =>
      rw [trimmed, List.getLast?_cons_cons, ← trimmed] at ends
      exact last ends
  rw [Pair.stored, inner]
  exact stripComment_quote _

theorem stored_closed {p : Pair} {text : Text} (some_ : p.comment = some text) (closed : p.Closed) :
    ∃ rest, p.stored = stripComment (p.value.bytes ++ quote :: (p.behind.bytes ++ hash :: rest)) := by
  have last := closed text some_
  obtain ⟨rest, trimmed⟩ := List.getLast?_eq_some_iff.mp last
  refine ⟨rest, ?_⟩
  have inner := unquote_quotes (p.value.bytes ++ quote :: (p.behind.bytes ++ hash :: rest))
  rw [Pair.stored, Pair.quoted, Pair.tail_some some_, trimmed]
  simpa only [List.append_assoc, List.cons_append] using congrArg stripComment inner

theorem Known.size_large (k : Known) : 64 ≤ k.size := by
  cases k <;> decide

theorem filled_quote (root : Bytes) (k : Known) {value : Bytes} (free : quote ∉ value) (s : Bytes) :
    k.filled root (quote :: s) ≠ value := by
  have large := k.size_large
  obtain ⟨n, size⟩ : ∃ n, k.size - 1 = n + 1 := ⟨k.size - 2, by omega⟩
  rintro rfl
  apply free
  rw [Known.filled, fit, size, List.take_succ_cons, if_neg (List.cons_ne_nil _ _)]
  exact List.mem_cons_self

theorem default_ne_nil (root : Bytes) {k : Known} (h : k ≠ .version) : k.default root ≠ [] := by
  cases k with
  | name =>
    rw [Known.default, defaultName, fit, ne_eq, List.take_eq_nil_iff]
    rintro (zero | empty)
    · cases zero
    · split at empty
      · cases empty
      · contradiction
  | version => exact absurd rfl h
  | tailwind =>
    change fit 64 (ascii "4.1.16") ≠ []
    decide

theorem filled_cut (root : Bytes) (k : Known) {value : Bytes} (short : value.length < k.size) :
    k.filled root (value.takeWhile (· != hash)) = value ↔
      (hash ∉ value ∧ (value ≠ [] ∨ k = .version)) ∨
        (k = .name ∧ value.head? = some hash ∧ value = defaultName root) := by
  have whole : fit k.size (value.takeWhile (· != hash)) = value.takeWhile (· != hash) :=
    List.take_of_length_le (by have := (List.takeWhile_prefix (· != hash) (l := value)).length_le; omega)
  rw [Known.filled, whole]
  by_cases free : hash ∉ value
  · have all : value.takeWhile (· != hash) = value :=
      List.takeWhile_eq_self_iff.mpr fun c mem => bne_iff_ne.mpr fun same => free (same ▸ mem)
    have noHead : value.head? ≠ some hash := fun same => free (List.mem_of_head? same)
    rw [all]
    by_cases empty : value = []
    · subst empty
      by_cases version : k = .version
      · subst version
        simp [Known.default]
      · simp [version, default_ne_nil root version]
    · simp [empty, free, noHead]
  · rw [not_not] at free
    obtain ⟨front, rest, rfl, freeFront⟩ := List.eq_append_cons_of_mem free
    rw [takeWhile_front freeFront]
    cases front with
    | nil =>
      have apart : (fit 64 (ascii "4.1.16")).head? ≠ some hash := by decide
      rw [if_pos rfl, List.nil_append]
      constructor
      · intro same
        cases k with
        | name => exact .inr ⟨rfl, rfl, same.symm⟩
        | version => cases same
        | tailwind => exact absurd (congrArg List.head? same) apart
      · rintro (⟨none, _⟩ | ⟨rfl, _, same⟩)
        · exact absurd free none
        · exact same.symm
    | cons c front =>
      have other : c ≠ hash := fun same => freeFront (same ▸ List.mem_cons_self)
      simp [other]

theorem takeWhile_more {s : Bytes} (mem : hash ∈ s) (more : Bytes) :
    (s ++ more).takeWhile (· != hash) = s.takeWhile (· != hash) := by
  obtain ⟨front, rest, rfl, free⟩ := List.eq_append_cons_of_mem mem
  rw [List.append_assoc, List.cons_append, takeWhile_front free, takeWhile_front free]

theorem filled_append (root : Bytes) (k : Known) {value : Bytes} (short : value.length < k.size) (c : UInt8)
    (more : Bytes) : k.filled root (value ++ c :: more) = value ↔ value.length = k.size - 1 := by
  have large := k.size_large
  have length : (fit k.size (value ++ c :: more)).length = min (k.size - 1) (value.length + (more.length + 1)) := by
    rw [fit, List.length_take, List.length_append, List.length_cons]
  have stays : fit k.size (value ++ c :: more) ≠ [] := by
    intro empty
    rw [empty, List.length_nil] at length
    omega
  rw [Known.filled, if_neg stays]
  constructor
  · intro same
    rw [same] at length
    omega
  · intro full
    rw [fit, ← full, List.take_left]

theorem Pair.hash_behind (p : Pair) : hash ∉ p.behind.bytes := by
  intro mem
  cases List.all_eq_true.mp p.behind.all hash mem

/-- Behind a value without `#` the closing quote and the blanks are stored too, where there is room for them. -/
theorem filled_closed_free (root : Bytes) {k : Known} {p : Pair} (short : p.value.bytes.length < k.size)
    (some_ : p.value.bytes ≠ []) (free : hash ∉ p.value.bytes) (rest : Bytes) :
    k.filled root (stripComment (p.value.bytes ++ quote :: (p.behind.bytes ++ hash :: rest))) = p.value.bytes ↔
      p.value.bytes.length = k.size - 1 := by
  have front : hash ∉ p.value.bytes ++ quote :: p.behind.bytes := by
    rw [List.mem_append, List.mem_cons]
    rintro (here | quote_ | behind)
    · exact free here
    · cases quote_
    · exact p.hash_behind behind
  have cut := takeWhile_front front rest
  rw [List.append_assoc, List.cons_append] at cut
  rw [stripComment_cut (p.head_value _ some_), cut, filled_append root k short]

theorem filled_closed {root : Bytes} {k : Known} {p : Pair} {text : Text} (short : p.value.bytes.length < k.size)
    (some_ : p.comment = some text) (closed : p.Closed) :
    k.filled root p.stored = p.value.bytes ↔ p.Kept root k := by
  have large := k.size_large
  obtain ⟨rest, stored⟩ := stored_closed some_ closed
  rw [stored]
  by_cases empty : p.value.bytes = []
  · rw [empty, List.nil_append, stripComment_quote]
    refine iff_of_false (filled_quote root k List.not_mem_nil _) ?_
    rintro (⟨_, none | full, _⟩ | ⟨_, head, _⟩)
    · rw [some_] at none
      cases none
    · rw [empty, List.length_nil] at full
      omega
    · rw [empty] at head
      cases head
  by_cases free : hash ∉ p.value.bytes
  · have noHead : p.value.bytes.head? ≠ some hash := fun same => free (List.mem_of_head? same)
    rw [filled_closed_free root short empty free]
    simp [Pair.Kept, free, some_, closed, empty, noHead]
  · rw [stripComment_cut (p.head_value _ empty), takeWhile_more (not_not.mp free), filled_cut root k short]
    simp only [Pair.Kept, free, false_and, closed, true_and]

theorem filled_iff_kept {root : Bytes} {k : Known} {p : Pair} (key : p.key.bytes = k.key) :
    k.filled root p.stored = p.value.bytes ↔ p.Kept root k := by
  have short := p.short k key
  by_cases closed : p.Closed
  · cases some_ : p.comment with
    | none =>
      rw [stored_plain some_, filled_cut root k short]
      simp only [Pair.Kept, some_, true_or, true_and, closed]
    | some text => exact filled_closed short some_ closed
  · rw [stored_open closed]
    refine iff_of_false (filled_quote root k p.no_quote _) ?_
    rintro (⟨_, none | ⟨other, _⟩, _⟩ | ⟨_, _, other, _⟩)
    · exact closed fun text some_ => by rw [none] at some_; cases some_
    · exact closed other
    · exact closed other

theorem loadLine_project (st : Loading) (line : Bytes) :
    (loadLine st line).project = st.project ∨
      ∃ key value, (loadLine st line).project = tomlAssign st.project key value := by
  simp only [loadLine]
  split_ifs
  · exact .inl rfl
  · split <;> exact .inl rfl
  · split
    · exact .inl rfl
    · exact .inr ⟨_, _, rfl⟩

/-- Every field fits with its NUL, and only the version can be empty. -/
structure Project.Sound (p : Project) : Prop where
  fits : ∀ k : Known, (p.field k).length < k.size
  named : p.name ≠ [] ∧ p.tailwindVersion ≠ []
  rooted : p.root.length < 1024

theorem fit_lt {size : ℕ} (pos : 0 < size) (value : Bytes) : (fit size value).length < size := by
  rw [fit, List.length_take]
  omega

theorem loadLines_fits (lines : List Bytes) {st : Loading} (fits : ∀ k : Known, (st.project.field k).length < k.size) :
    (lines.foldl loadLine st).project.root = st.project.root ∧
      ∀ k : Known, ((lines.foldl loadLine st).project.field k).length < k.size := by
  induction lines generalizing st with
  | nil => exact ⟨rfl, fits⟩
  | cons line lines ih =>
    rw [List.foldl_cons]
    obtain same | ⟨key, value, assigned⟩ := loadLine_project st line
    · rw [← same] at fits ⊢
      exact ih fits
    · have root := (tomlAssign_field st.project key value .name).2
      rw [← root, ← assigned]
      refine ih fun k => ?_
      rw [assigned, (tomlAssign_field st.project key value k).1]
      split
      · exact fit_lt (by have := k.size_large; omega) value
      · exact fits k

theorem default_fits (root : Bytes) (k : Known) : (k.default root).length < k.size := by
  cases k with
  | name => exact fit_lt (by decide) _
  | version => exact (by decide : 0 < 64)
  | tailwind => exact fit_lt (by decide) _

theorem projectLoad_ok {files : Files} {dir : Bytes} {proj : Project} (h : projectLoad files dir = .ok proj) :
    ∃ root path data, searchUp files 16 0 (fit 1024 dir) [] = .ok (root, path) ∧ files.read path = some data ∧
      proj = loadText (fit 1024 root) data := by
  unfold projectLoad at h
  cases found : searchUp files 16 0 (fit 1024 dir) [] with
  | error text =>
    rw [found] at h
    cases h
  | ok place =>
    rw [found] at h
    cases read : files.read place.2 with
    | none =>
      simp only [Except.bind, read] at h
      cases h
    | some data =>
      simp only [Except.bind, read] at h
      exact ⟨place.1, place.2, data, rfl, read, (Except.ok.inj h).symm⟩

theorem projectLoad_sound {files : Files} {dir : Bytes} {proj : Project} (h : projectLoad files dir = .ok proj) :
    proj.Sound := by
  obtain ⟨root, _, data, _, _, rfl⟩ := projectLoad_ok h
  have start : ∀ k : Known, ((⟨[], [], [], [], fit 1024 root⟩ : Loading).project.field k).length < k.size := by
    intro k
    have empty : (⟨[], [], [], [], fit 1024 root⟩ : Loading).project.field k = [] := by cases k <;> rfl
    have large := k.size_large
    rw [empty, List.length_nil]
    omega
  obtain ⟨kept, fits⟩ := loadLines_fits (words (· != newline) (cstr data)) start
  have filled : ∀ k : Known, k ≠ .version → (loadText (fit 1024 root) data).field k ≠ [] := by
    intro k other
    rw [loadText, withDefaults_field]
    split
    · exact default_ne_nil _ other
    · assumption
  refine ⟨fun k => ?_, ⟨filled .name (by decide), filled .tailwind (by decide)⟩, ?_⟩
  · rw [loadText, withDefaults_field]
    split
    · exact default_fits _ k
    · exact fits k
  · exact kept ▸ fit_lt (by decide) root

/-- The known keys of a file are stored as they are written, if exactly their last lines keep them. -/
theorem values_as_written_iff {files : Files} {dir root path : Bytes} {lines : List TomlLine}
    (found : searchUp files 16 0 (fit 1024 dir) [] = .ok (root, path))
    (readable : files.read path = some (tomlText lines)) :
    (∃ proj, projectLoad files dir = .ok proj ∧
        ∀ k p, lastPair k lines = some p → proj.field k = p.value.bytes) ↔
      ∀ k p, lastPair k lines = some p → p.Kept (fit 1024 root) k := by
  have loaded : projectLoad files dir = .ok (loadText (fit 1024 root) (tomlText lines)) := by
    rw [projectLoad, found]
    change (match files.read path with
      | none => Except.error (ascii "cannot read " ++ path)
      | some data => .ok (loadText (fit 1024 root) data)) = _
    rw [readable]
  have one : ∀ k p, lastPair k lines = some p →
      ((loadText (fit 1024 root) (tomlText lines)).field k = p.value.bytes ↔ p.Kept (fit 1024 root) k) := by
    intro k p last
    rw [loadText_field last]
    exact filled_iff_kept (assigns_pair last)
  rw [loaded]
  constructor
  · rintro ⟨proj, same, values⟩ k p last
    obtain rfl := Except.ok.inj same
    exact (one k p last).mp (values k p last)
  · intro kept
    exact ⟨_, rfl, fun k p last => (one k p last).mpr (kept k p last)⟩

def noBlanks : Blanks := ⟨[], rfl⟩

def oneBlank : Blanks := ⟨[32], rfl⟩

def appFiles (lines : List TomlLine) : Files :=
  ⟨(· == ascii "/app/cerco.toml"), fun path => if path = ascii "/app/cerco.toml" then some (tomlText lines) else none⟩

def nameKey : Key := ⟨⟨ascii "name", rfl⟩, rfl, rfl⟩

def versionKey : Key := ⟨⟨ascii "version", rfl⟩, rfl, rfl⟩

def shopPair : Pair where
  lead := noBlanks
  key := nameKey
  behindKey := oneBlank
  front := oneBlank
  value := ⟨ascii "shop", rfl⟩
  behind := noBlanks
  comment := none
  short k _ := by cases k <;> decide

theorem shop_as_written :
    ∃ proj, projectLoad (appFiles [.blank noBlanks, .pair shopPair]) (ascii "/app/src") = .ok proj ∧
      ∀ k p, lastPair k [.blank noBlanks, .pair shopPair] = some p → proj.field k = p.value.bytes := by
  have found : searchUp (appFiles [.blank noBlanks, .pair shopPair]) 16 0 (fit 1024 (ascii "/app/src")) [] =
      .ok (ascii "/app", ascii "/app/cerco.toml") := rfl
  refine (values_as_written_iff found rfl).mpr fun k p last => ?_
  cases k with
  | name =>
    obtain rfl := Option.some.inj last
    exact .inl ⟨by decide, .inl rfl, .inl (List.cons_ne_nil _ _)⟩
  | _ => cases last

def hashPair : Pair where
  lead := noBlanks
  key := nameKey
  behindKey := oneBlank
  front := oneBlank
  value := ⟨ascii "a#b", rfl⟩
  behind := noBlanks
  comment := none
  short k _ := by cases k <;> decide

def notePair : Pair where
  lead := noBlanks
  key := versionKey
  behindKey := oneBlank
  front := oneBlank
  value := ⟨ascii "1.0", rfl⟩
  behind := oneBlank
  comment := some ⟨ascii " first", rfl⟩
  short k _ := by cases k <;> decide

def hashLines : List TomlLine := [.pair hashPair, .pair notePair]

example : tomlText hashLines = ascii "name = \"a#b\"\nversion = \"1.0\" # first" := by decide +kernel

theorem hash_not_as_written :
    projectLoad (appFiles hashLines) (ascii "/app") =
        .ok ⟨ascii "a", ascii "\"1.0\" # first", ascii "4.1.16", ascii "/app"⟩ ∧
      ¬ ∃ proj, projectLoad (appFiles hashLines) (ascii "/app") = .ok proj ∧
        ∀ k p, lastPair k hashLines = some p → proj.field k = p.value.bytes := by
  have loaded : projectLoad (appFiles hashLines) (ascii "/app") =
      .ok ⟨ascii "a", ascii "\"1.0\" # first", ascii "4.1.16", ascii "/app"⟩ := by decide +kernel
  refine ⟨loaded, ?_⟩
  rintro ⟨proj, same, values⟩
  rw [loaded] at same
  obtain rfl := Except.ok.inj same
  have name := values .name hashPair rfl
  revert name
  decide

end Cerco.ProjectFile
