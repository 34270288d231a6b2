import Cerco.ClientDigits
import Cerco.FileTree

set_option autoImplicit false

/-!
# The file watcher

`watch_scan` walks `src` into a table of 4096 entries, puts `cerco.toml` behind them, and
compares with the table of the scan before. A store behind the table has no result. The
tree is the one that `stat` shows, and where a path is cut nothing has the path that is left.
-/
namespace Cerco.WatchScan
open Cerco.CString Cerco.ClientDigits Cerco.FileTree Cerco.RouteFiles Cerco.RouteScan
open Cerco.Response (decimal)

inductive FsNode
  | file (name : FileName) (mtime : ℤ)
  | dir (name : FileName) (mtime : ℤ) (entries : List FsNode)

structure WatchEntry where
  path : Bytes
  mtime : ℤ
deriving DecidableEq

/-- A project as a scan finds it; `toml` is the time of `cerco.toml`, if it is a regular file. -/
structure Project where
  src : List FsNode
  toml : Option ℤ

structure Root where
  bytes : Bytes
  short : bytes.length ≤ 1023

def fitsPath (full : Bytes) : Bool := full.length ≤ 1023

mutual

/-- What `walk_dir` reports of one name in the directory `full`. -/
def walkNode (full : Bytes) : FsNode → List WatchEntry
  | .file name mtime =>
    if fitsPath (full ++ slash :: name.bytes) then [⟨full ++ slash :: name.bytes, mtime⟩] else []
  | .dir name mtime entries =>
    if fitsPath (full ++ slash :: name.bytes) then
      if walkPruned name then []
      else ⟨full ++ slash :: name.bytes, mtime⟩ :: walkEntries (full ++ slash :: name.bytes) entries
    else []

def walkEntries (full : Bytes) : List FsNode → List WatchEntry
  | [] => []
  | node :: nodes => walkNode full node ++ walkEntries full nodes

end

def walkDir (full : Bytes) (entries : List FsNode) : List WatchEntry :=
  if fitsPath full then walkEntries full entries else []

def watchCb (table : List WatchEntry) (e : WatchEntry) : List WatchEntry :=
  if 4096 ≤ table.length then table else table ++ [⟨fit 1024 e.path, e.mtime⟩]

def tomlPath (root : Root) : Bytes := fit 1300 (root.bytes ++ ascii "/cerco.toml")

def differs (old now : List WatchEntry) : Bool :=
  (old.zip now).any fun p => p.1.mtime != p.2.mtime || p.1.path != p.2.path

def scanTable (root : Root) (p : Project) : Option (List WatchEntry) :=
  let walked := (walkDir (fit 1300 (root.bytes ++ ascii "/src")) p.src).foldl watchCb []
  match p.toml with
  | none => some walked
  | some mt => if walked.length < 4096 then some (walked ++ [⟨fit 1024 (tomlPath root), mt⟩]) else none

/-- `watch_scan`: what it returns, and the table it leaves. -/
def watchScan (root : Root) (old : List WatchEntry) (p : Project) : Option (Bool × List WatchEntry) :=
  if 4096 < old.length then none
  else (scanTable root p).map fun now => (if old.length ≠ now.length then true else differs old now, now)

/-- A file or a directory below `src`, by the names on the way to it. -/
structure Listed where
  above : List FileName
  name : FileName
  isDir : Bool
  mtime : ℤ

mutual

def listNode (above : List FileName) : FsNode → List Listed
  | .file name mtime => [⟨above, name, false, mtime⟩]
  | .dir name mtime entries => ⟨above, name, true, mtime⟩ :: listEntries (above ++ [name]) entries

def listEntries (above : List FileName) : List FsNode → List Listed
  | [] => []
  | node :: nodes => listNode above node ++ listEntries above nodes

end

def pathBelow (root : Root) (names : List FileName) : Bytes :=
  root.bytes ++ ascii "/src" ++ names.flatMap fun n => slash :: n.bytes

def Listed.entry (root : Root) (l : Listed) : WatchEntry := ⟨pathBelow root (l.above ++ [l.name]), l.mtime⟩

def Listed.folders (l : Listed) : List FileName := if l.isDir then l.above ++ [l.name] else l.above

def Listed.visible (root : Root) (l : Listed) : Bool :=
  !l.folders.any walkPruned && fitsPath (pathBelow root (l.above ++ [l.name]))

def Project.files (p : Project) : List Listed := listEntries [] p.src

/-- All paths with their times: the files and directories below `src`, and `cerco.toml`. -/
def Project.listing (root : Root) (p : Project) : List WatchEntry :=
  p.files.map (Listed.entry root) ++ p.toml.toList.map (WatchEntry.mk (tomlPath root))

def Project.seen (root : Root) (p : Project) : List WatchEntry :=
  ((p.files.filter (Listed.visible root)).map (Listed.entry root)).take 4096 ++
    p.toml.toList.map (WatchEntry.mk (fit 1024 (tomlPath root)))

/-- The scan of `p` keeps to the table, and tells whether the list differs from that of `e`. -/
def ScanExact (root : Root) (table : List WatchEntry) (e p : Project) : Prop :=
  ∃ changed now, watchScan root table p = some (changed, now) ∧ now.length ≤ 4096 ∧
    (changed = true ↔ e.listing root ≠ p.listing root)

/-- There is room for `cerco.toml` behind what is visible. -/
def Project.Room (root : Root) (p : Project) : Prop :=
  p.toml = none ∨ (p.files.filter (Listed.visible root)).length < 4096

/-- A difference between the lists shows in what is seen, and no other one does. -/
def Shows (root : Root) (e p : Project) : Prop := e.seen root = p.seen root ↔ e.listing root = p.listing root

/-- Nothing is hidden, and the table holds it all. -/
def Project.Plain (root : Root) (p : Project) : Prop :=
  (∀ l ∈ p.files, l.visible root = true) ∧ (p.listing root).length ≤ 4096

instance (root : Root) (p : Project) : Decidable (p.Plain root) := inferInstanceAs (Decidable (_ ∧ _))

def watchRun (root : Root) : List WatchEntry → List Project → Option (List Bool)
  | _, [] => some []
  | old, p :: ps => (watchScan root old p).bind fun scan => (watchRun root scan.2 ps).map (scan.1 :: ·)

def changes (root : Root) : Project → List Project → List Bool
  | _, [] => []
  | e, p :: ps => (e.listing root != p.listing root) :: changes root p ps

theorem pathBelow_snoc (root : Root) (names : List FileName) (n : FileName) :
    pathBelow root (names ++ [n]) = pathBelow root names ++ slash :: n.bytes := by
  simp [pathBelow]

theorem pathBelow_le (root : Root) {names more : List FileName} (h : names <+: more) :
    (pathBelow root names).length ≤ (pathBelow root more).length := by
  obtain ⟨rest, rfl⟩ := h
  simp only [pathBelow, List.flatMap_append, List.length_append]
  omega

mutual

theorem listNode_below (above : List FileName) (node : FsNode) {l : Listed} (h : l ∈ listNode above node) :
    above <+: l.folders := by
  cases node with
  | file name mtime =>
    rw [listNode, List.mem_singleton] at h
    rw [h]
    exact List.prefix_rfl
  | dir name mtime entries =>
    rw [listNode, List.mem_cons] at h
    obtain rfl | inside := h
    · exact List.prefix_append above [name]
    · exact (List.prefix_append above [name]).trans (listEntries_below (above ++ [name]) entries inside)

theorem listEntries_below (above : List FileName) (nodes : List FsNode) {l : Listed}
    (h : l ∈ listEntries above nodes) : above <+: l.folders := by
  cases nodes with
  | nil =>
    rw [listEntries] at h
    cases h
  | cons node nodes =>
    rw [listEntries, List.mem_append] at h
    obtain here | later := h
    · exact listNode_below above node here
    · exact listEntries_below above nodes later

end

theorem folders_front (l : Listed) : l.folders <+: l.above ++ [l.name] := by
  unfold Listed.folders
  split
  · exact List.prefix_rfl
  · exact List.prefix_append _ _

theorem hidden_below (root : Root) {above : List FileName} (nodes : List FsNode)
    (closed : above.any walkPruned = true ∨ fitsPath (pathBelow root above) = false) :
    (listEntries above nodes).filter (Listed.visible root) = [] := by
  rw [List.filter_eq_nil_iff]
  intro l mem
  have front := listEntries_below above nodes mem
  rw [Listed.visible, Bool.and_eq_true, Bool.not_eq_true']
  rintro ⟨unpruned, fits⟩
  obtain pruned | long := closed
  · obtain ⟨rest, whole⟩ := front
    rw [← whole, List.any_append, pruned] at unpruned
    cases unpruned
  · have longer := pathBelow_le root (front.trans (folders_front l))
    unfold fitsPath at fits long
    rw [decide_eq_true_eq] at fits
    rw [decide_eq_false_iff_not] at long
    omega

mutual

theorem walkNode_visible (root : Root) {above : List FileName} (entered : above.any walkPruned = false)
    (node : FsNode) :
    walkNode (pathBelow root above) node =
      ((listNode above node).filter (Listed.visible root)).map (Listed.entry root) := by
  cases node with
  | file name mtime =>
    have seen : Listed.visible root ⟨above, name, false, mtime⟩ = fitsPath (pathBelow root (above ++ [name])) := by
      simp only [Listed.visible, Listed.folders, Bool.false_eq_true, if_false, entered, Bool.not_false, Bool.true_and]
    rw [walkNode, listNode, List.filter_singleton, seen, ← pathBelow_snoc]
    cases fitsPath (pathBelow root (above ++ [name])) <;> rfl
  | dir name mtime entries =>
    have seen : Listed.visible root ⟨above, name, true, mtime⟩ =
        (!walkPruned name && fitsPath (pathBelow root (above ++ [name]))) := by
      simp only [Listed.visible, Listed.folders, if_true, List.any_append, entered, List.any_cons, List.any_nil,
        Bool.or_false, Bool.false_or]
    rw [walkNode, listNode, List.filter_cons, seen, ← pathBelow_snoc]
    cases fits : fitsPath (pathBelow root (above ++ [name])) with
    | false =>
      rw [hidden_below root entries (.inr fits), if_neg Bool.false_ne_true, Bool.and_false,
        if_neg Bool.false_ne_true]
      rfl
    | true =>
      cases pruned : walkPruned name with
      | true =>
        have closed : (above ++ [name]).any walkPruned = true := by simp [pruned]
        rw [hidden_below root entries (.inl closed)]
        rfl
      | false =>
        have further : (above ++ [name]).any walkPruned = false := by simp [entered, pruned]
        rw [walkEntries_visible root further entries]
        rfl

theorem walkEntries_visible (root : Root) {above : List FileName} (entered : above.any walkPruned = false)
    (nodes : List FsNode) :
    walkEntries (pathBelow root above) nodes =
      ((listEntries above nodes).filter (Listed.visible root)).map (Listed.entry root) := by
  cases nodes with
  | nil => rfl
  | cons node nodes =>
    rw [walkEntries, listEntries, List.filter_append, List.map_append, walkNode_visible root entered node,
      walkEntries_visible root entered nodes]

end

theorem walkDir_visible (root : Root) (p : Project) :
    walkDir (fit 1300 (root.bytes ++ ascii "/src")) p.src =
      (p.files.filter (Listed.visible root)).map (Listed.entry root) := by
  have top : fit 1300 (root.bytes ++ ascii "/src") = pathBelow root [] := by
    have short := root.short
    have length : (root.bytes ++ ascii "/src").length = root.bytes.length + 4 := List.length_append
    rw [fit, List.take_of_length_le (by omega)]
    exact (List.append_nil _).symm
  rw [walkDir, top]
  cases fits : fitsPath (pathBelow root []) with
  | false =>
    rw [Project.files, hidden_below root p.src (.inr fits)]
    rfl
  | true => exact walkEntries_visible root rfl p.src

theorem fit_fits {path : Bytes} (h : fitsPath path = true) : fit 1024 path = path :=
  List.take_of_length_le (of_decide_eq_true h)

theorem foldl_watchCb (reports : List WatchEntry) {table : List WatchEntry} (short : table.length ≤ 4096)
    (fits : ∀ e ∈ reports, fitsPath e.path = true) : reports.foldl watchCb table = (table ++ reports).take 4096 := by
  induction reports generalizing table with
  | nil => rw [List.append_nil, List.take_of_length_le short, List.foldl_nil]
  | cons e reports ih =>
    have rest := fun e' mem => fits e' (List.mem_cons_of_mem e mem)
    rw [List.foldl_cons, watchCb]
    by_cases full : 4096 ≤ table.length
    · have exact_ : 4096 = table.length := Nat.le_antisymm full short
      rw [if_pos full, ih short rest, exact_, List.take_left, List.take_left]
    · rw [if_neg full, fit_fits (fits e List.mem_cons_self), ih (by simp; omega) rest, List.append_assoc]
      rfl

theorem walked_seen (root : Root) (p : Project) :
    (walkDir (fit 1300 (root.bytes ++ ascii "/src")) p.src).foldl watchCb [] =
      ((p.files.filter (Listed.visible root)).map (Listed.entry root)).take 4096 := by
  rw [walkDir_visible]
  refine foldl_watchCb _ (Nat.zero_le _) fun e mem => ?_
  obtain ⟨l, visible, rfl⟩ := List.mem_map.mp mem
  have fits := (List.mem_filter.mp visible).2
  rw [Listed.visible, Bool.and_eq_true] at fits
  exact fits.2

theorem scanTable_room {root : Root} {p : Project} (room : p.Room root) :
    scanTable root p = some (p.seen root) ∧ (p.seen root).length ≤ 4096 := by
  unfold scanTable Project.seen
  rw [walked_seen]
  obtain none | less := room
  · rw [none]
    refine ⟨congrArg some (List.append_nil _).symm, ?_⟩
    rw [Option.toList_none, List.map_nil, List.append_nil]
    exact List.length_take_le _ _
  · have length : (((p.files.filter (Listed.visible root)).map (Listed.entry root)).take 4096).length < 4096 := by
      rw [List.length_take, List.length_map]
      omega
    cases p.toml with
    | none =>
      refine ⟨congrArg some (List.append_nil _).symm, ?_⟩
      rw [Option.toList_none, List.map_nil, List.append_nil]
      exact List.length_take_le _ _
    | some mt =>
      refine ⟨if_pos length, ?_⟩
      rw [List.length_append]
      exact length

theorem scanTable_burst {root : Root} {p : Project} (full : ¬ p.Room root) : scanTable root p = none := by
  rw [Project.Room, not_or, Nat.not_lt] at full
  obtain ⟨some, many⟩ := full
  obtain ⟨mt, toml⟩ := Option.ne_none_iff_exists'.mp some
  have length : ¬ (((p.files.filter (Listed.visible root)).map (Listed.entry root)).take 4096).length < 4096 := by
    rw [List.length_take, List.length_map]
    omega
  unfold scanTable
  rw [walked_seen, toml]
  exact if_neg length

theorem differs_iff {old now : List WatchEntry} (length : old.length = now.length) :
    differs old now = true ↔ old ≠ now := by
  induction old generalizing now with
  | nil =>
    obtain rfl := List.length_eq_zero_iff.mp length.symm
    exact iff_of_false Bool.false_ne_true fun ne => ne rfl
  | cons a old ih =>
    cases now with
    | nil => cases length
    | cons b now =>
      have rest := ih (Nat.succ.inj length)
      have entry : (a.mtime != b.mtime || a.path != b.path) = true ↔ a ≠ b := by
        rw [Bool.or_eq_true, bne_iff_ne, bne_iff_ne, ne_eq, ne_eq, ne_eq, WatchEntry.mk.injEq, not_and_or, or_comm]
      change ((a.mtime != b.mtime || a.path != b.path) || differs old now) = true ↔ _
      rw [Bool.or_eq_true, rest, entry, ne_eq (a :: old), List.cons.injEq, not_and_or]

theorem watchScan_room {root : Root} {table : List WatchEntry} (short : table.length ≤ 4096) {p : Project}
    (room : p.Room root) :
    ∃ changed, watchScan root table p = some (changed, p.seen root) ∧ (changed = true ↔ table ≠ p.seen root) := by
  unfold watchScan
  rw [if_neg (Nat.not_lt.mpr short), (scanTable_room room).1, Option.map_some]
  refine ⟨_, rfl, ?_⟩
  by_cases length : table.length = (p.seen root).length
  · rw [if_neg (not_not.mpr length)]
    exact differs_iff length
  · rw [if_pos length]
    exact iff_of_true rfl fun same => length (congrArg List.length same)

theorem watchScan_table {root : Root} {old table : List WatchEntry} {e : Project} {changed : Bool}
    (h : watchScan root old e = some (changed, table)) : e.Room root ∧ table = e.seen root ∧ table.length ≤ 4096 := by
  obtain ⟨_, scanned⟩ := Option.ite_none_left_eq_some.mp h
  by_cases room : e.Room root
  · obtain ⟨seen, short⟩ := scanTable_room room
    rw [seen] at scanned
    obtain rfl := congrArg Prod.snd (Option.some.inj scanned)
    exact ⟨room, rfl, short⟩
  · rw [scanTable_burst room] at scanned
    cases scanned

theorem append_mark {path : Bytes} {xs ys : List WatchEntry} (hx : ∀ e ∈ xs, e.path ≠ path)
    (hy : ∀ e ∈ ys, e.path ≠ path) (o o' : Option ℤ) :
    xs ++ o.toList.map (WatchEntry.mk path) = ys ++ o'.toList.map (WatchEntry.mk path) ↔ xs = ys ∧ o = o' := by
  have front : ∀ {zs : List WatchEntry} (o : Option ℤ), (∀ e ∈ zs, e.path ≠ path) →
      (zs ++ o.toList.map (WatchEntry.mk path)).filter (fun e => e.path != path) = zs := by
    intro zs o hz
    have unmarked : (o.toList.map (WatchEntry.mk path)).filter (fun e => e.path != path) = [] := by
      cases o <;> simp
    rw [List.filter_append, unmarked, List.append_nil, List.filter_eq_self]
    exact fun e mem => bne_iff_ne.mpr (hz e mem)
  constructor
  · intro same
    have fronts := congrArg (List.filter fun e => e.path != path) same
    rw [front o hx, front o' hy] at fronts
    subst fronts
    have marks := List.append_cancel_left same
    refine ⟨rfl, ?_⟩
    cases o <;> cases o' <;> simp_all
  · rintro ⟨rfl, rfl⟩
    rfl

theorem toml_apart {root : Root} {l : Listed} (visible : l.visible root = true) {size : ℕ} (large : 1023 ≤ size) :
    (l.entry root).path ≠ (root.bytes ++ ascii "/cerco.toml").take size := by
  rw [Listed.visible, Bool.and_eq_true] at visible
  have fits : (pathBelow root (l.above ++ [l.name])).length ≤ 1023 := of_decide_eq_true visible.2
  have length : root.bytes.length + 4 ≤ (pathBelow root (l.above ++ [l.name])).length := by
    simp only [pathBelow, List.length_append, show (ascii "/src").length = 4 from rfl]
    omega
  intro same
  have here := congrArg (fun path : Bytes => path[root.bytes.length + 1]?) same
  have below : (pathBelow root (l.above ++ [l.name]))[root.bytes.length + 1]? = some 115 := by
    rw [pathBelow, List.append_assoc, List.getElem?_append_right (by omega), Nat.add_sub_cancel_left]
    rfl
  have behind : ((root.bytes ++ ascii "/cerco.toml").take size)[root.bytes.length + 1]? = some 99 := by
    rw [List.getElem?_take_of_lt (by omega), List.getElem?_append_right (by omega), Nat.add_sub_cancel_left]
    rfl
  rw [Listed.entry, below, behind] at here
  cases here

theorem plain_room {root : Root} {p : Project} (plain : p.Plain root) : p.Room root := by
  have short := plain.2
  rw [Project.listing, List.length_append, List.length_map, List.length_map] at short
  cases toml : p.toml with
  | none => exact .inl toml
  | some mt =>
    rw [toml, Option.toList_some, List.length_singleton] at short
    exact .inr (Nat.lt_of_le_of_lt (List.length_filter_le _ _) short)

theorem plain_seen {root : Root} {p : Project} (plain : p.Plain root) :
    p.seen root =
      p.files.map (Listed.entry root) ++ p.toml.toList.map (WatchEntry.mk (fit 1024 (tomlPath root))) := by
  have short : p.files.length ≤ 4096 := by
    have all := plain.2
    rw [Project.listing, List.length_append, List.length_map] at all
    omega
  rw [Project.seen, List.filter_eq_self.mpr plain.1, List.take_of_length_le (by rwa [List.length_map])]

theorem plain_shows {root : Root} {e p : Project} (he : e.Plain root) (hp : p.Plain root) : Shows root e p := by
  have apart : ∀ {q : Project}, q.Plain root → ∀ {size}, 1023 ≤ size →
      ∀ w ∈ q.files.map (Listed.entry root), w.path ≠ (root.bytes ++ ascii "/cerco.toml").take size := by
    intro q plain size large w mem
    obtain ⟨l, listed, rfl⟩ := List.mem_map.mp mem
    exact toml_apart (plain.1 l listed) large
  have cut : fit 1024 (tomlPath root) = (root.bytes ++ ascii "/cerco.toml").take 1023 := List.take_take
  rw [Shows, plain_seen he, plain_seen hp, cut, append_mark (apart he (by omega)) (apart hp (by omega))]
  exact (append_mark (apart he (by omega)) (apart hp (by omega)) e.toml p.toml).symm

theorem watchRun_plain {root : Root} {e : Project} (plain : e.Plain root) {ps : List Project}
    (all : ∀ p ∈ ps, p.Plain root) : watchRun root (e.seen root) ps = some (changes root e ps) := by
  induction ps generalizing e with
  | nil => rfl
  | cons p ps ih =>
    have next := all p List.mem_cons_self
    obtain ⟨changed, scan, differ⟩ := watchScan_room (scanTable_room (plain_room plain)).2 (plain_room next)
    have flag : changed = (e.listing root != p.listing root) := by
      rw [Bool.eq_iff_iff, differ, bne_iff_ne]
      exact not_congr (plain_shows plain next)
    rw [watchRun, scan, Option.bind_some, ih next fun q mem => all q (List.mem_cons_of_mem p mem), flag]
    rfl

theorem scanExact_iff {root : Root} {old table : List WatchEntry} {e : Project} {before : Bool}
    (earlier : watchScan root old e = some (before, table)) (p : Project) :
    ScanExact root table e p ↔ p.Room root ∧ Shows root e p := by
  obtain ⟨_, rfl, short⟩ := watchScan_table earlier
  constructor
  · rintro ⟨changed, now, scan, _, exact_⟩
    obtain ⟨room, _, _⟩ := watchScan_table scan
    obtain ⟨flag, same, differ⟩ := watchScan_room short room
    rw [scan] at same
    obtain rfl := congrArg Prod.fst (Option.some.inj same)
    exact ⟨room, not_iff_not.mp (differ.symm.trans exact_)⟩
  · rintro ⟨room, shows⟩
    obtain ⟨flag, scan, differ⟩ := watchScan_room short room
    exact ⟨flag, _, scan, (scanTable_room room).2, differ.trans (not_congr shows)⟩

/-- Behind any scan, the next one keeps to the table and tells whether the list has changed, if both lists fit
into the table and nothing is hidden: no entry in a pruned folder and no path of 1024 bytes. Beyond that it does
exactly if there is room for `cerco.toml` and what is seen changes with the list. -/
theorem watch_scan_exact_iff {root : Root} {old table : List WatchEntry} {e : Project} {before : Bool}
    (earlier : watchScan root old e = some (before, table)) (p : Project) :
    (e.Plain root → p.Plain root → ScanExact root table e p) ∧
      (ScanExact root table e p ↔ p.Room root ∧ Shows root e p) := by
  have exactly := scanExact_iff earlier p
  exact ⟨fun plain next => exactly.mpr ⟨plain_room next, plain_shows plain next⟩, exactly⟩

def appRoot : Root := ⟨ascii "/app", by decide⟩

def emptyProject : Project := ⟨[], none⟩

def noticeProject : Project := ⟨[.dir ⟨ascii "notices", by decide, by decide, by decide⟩ 1
  [.file ⟨ascii "first.c", by decide, by decide, by decide⟩ 2]], some 3⟩

theorem file_noticed : ScanExact appRoot [] emptyProject noticeProject := by
  have before : watchScan appRoot [] emptyProject = some (false, []) := rfl
  have none_ : emptyProject.Plain appRoot := by decide
  have one : noticeProject.Plain appRoot := by decide
  exact (watch_scan_exact_iff before noticeProject).1 none_ one

theorem decimal_free (n : ℕ) {c : UInt8} (h : c < 48) : c ∉ decimal n :=
  fun mem => absurd ((decimal_digits n).2 c mem).1 (UInt8.not_le.mpr h)

def numbered (n : ℕ) : FileName :=
  ⟨decimal n, decimal_ne_nil n, decimal_free n (by decide), decimal_free n (by decide)⟩

/-- As many files as the table has entries, and `cerco.toml`. -/
def fullProject : Project := ⟨(List.range 4096).map fun n => .file (numbered n) 1, some 1⟩

theorem files_numbered (ns : List ℕ) :
    listEntries [] (ns.map fun n => .file (numbered n) 1) = ns.map fun n => ⟨[], numbered n, false, 1⟩ := by
  induction ns with
  | nil => rfl
  | cons n ns ih => rw [List.map_cons, listEntries, ih, listNode, List.map_cons, List.singleton_append]

theorem numbered_visible {n : ℕ} (h : n < 4096) : Listed.visible appRoot ⟨[], numbered n, false, 1⟩ = true := by
  have digits : (decimal n).length ≤ 4 := (decimal_length_le (by decide)).mpr (by omega)
  have path : pathBelow appRoot ([] ++ [numbered n]) = ascii "/app/src/" ++ decimal n := by
    rw [pathBelow_snoc]
    rfl
  have length : (pathBelow appRoot ([] ++ [numbered n])).length ≤ 1023 := by
    rw [path, List.length_append, show (ascii "/app/src/").length = 9 from rfl]
    omega
  exact decide_eq_true length

theorem full_table_burst :
    watchScan appRoot [] emptyProject = some (false, []) ∧ watchScan appRoot [] fullProject = none ∧
      ¬ ScanExact appRoot [] emptyProject fullProject := by
  have all : fullProject.files.filter (Listed.visible appRoot) = fullProject.files := by
    rw [List.filter_eq_self, Project.files, fullProject, files_numbered]
    intro l mem
    obtain ⟨n, range, rfl⟩ := List.mem_map.mp mem
    exact numbered_visible (List.mem_range.mp range)
  have many : ¬ fullProject.Room appRoot := by
    rw [Project.Room, all, Project.files, fullProject, files_numbered, List.length_map, List.length_range]
    rintro (toml | less)
    · cases toml
    · exact Nat.lt_irrefl _ less
  have burst : watchScan appRoot [] fullProject = none := by
    rw [watchScan, scanTable_burst many]
    rfl
  refine ⟨rfl, burst, ?_⟩
  rintro ⟨changed, now, scan, _⟩
  rw [burst] at scan
  cases scan

end Cerco.WatchScan
