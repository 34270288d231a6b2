import Cerco.LayoutChains
import Mathlib.Data.List.Nodup

set_option autoImplicit false

/-!
# Trees of files

A tree is the list of its regular files in the order in which `readdir` gets to them,
and of the folders without any. There are no symbolic links.
-/
namespace Cerco.FileTree
open Cerco.CString Cerco.LayoutChains Cerco.RouteFiles

structure TreeFile where
  path : List FileName
  content : Bytes
deriving DecidableEq

def TreeFile.rel (f : TreeFile) : Bytes := dirText f.path

def IsReal (n : FileName) : Prop := n.bytes ≠ ascii "." ∧ n.bytes ≠ ascii ".."

instance (n : FileName) : Decidable (IsReal n) := inferInstanceAs (Decidable (_ ∧ _))

structure Tree where
  files : List TreeFile
  folders : List (List FileName)
  real : ∀ f ∈ files, ∀ n ∈ f.path, IsReal n
  below : ∀ f ∈ files, f.path ≠ []
  distinct : (files.map TreeFile.path).Nodup
  leaves : ∀ f ∈ files, ∀ p ∈ files.map TreeFile.path ++ folders, f.path <+: p → f.path = p

def walkPruned (n : FileName) : Bool :=
  n.bytes == ascii ".git" || n.bytes == ascii ".cerco" || n.bytes == ascii "node_modules"

/-- `"%s/%s"` of the root and this path fits into 1024 bytes. -/
def fitsWalk (root : Bytes) (path : List FileName) : Bool := root.length + 1 + (dirText path).length ≤ 1023

/-- The files that `walk_dir` reports, if no path that is cut names anything. -/
def Tree.walk (t : Tree) (root : Bytes) : List TreeFile :=
  t.files.filter fun f => !(f.path.dropLast.any walkPruned) && fitsWalk root f.path

/-- What `stat` finds. -/
inductive Found
  | file (f : TreeFile)
  | folder
  | missing

def Tree.stat (t : Tree) (path : List Bytes) : Found :=
  match t.files.find? fun f => f.path.map FileName.bytes == path with
  | some f => .file f
  | none =>
    if (t.files.map TreeFile.path ++ t.folders).any fun p => path.isPrefixOf (p.map FileName.bytes) then .folder
    else .missing

theorem Tree.same_path (t : Tree) {f g : TreeFile} (hf : f ∈ t.files) (hg : g ∈ t.files)
    (same : g.path.map FileName.bytes = f.path.map FileName.bytes) : g = f :=
  List.inj_on_of_nodup_map t.distinct hg hf (dirText_inj (congrArg Router.joinSegs same))

theorem Tree.stat_file (t : Tree) {f : TreeFile} (h : f ∈ t.files) :
    t.stat (f.path.map FileName.bytes) = .file f := by
  unfold stat
  cases found : t.files.find? fun g => g.path.map FileName.bytes == f.path.map FileName.bytes with
  | none => exact absurd (beq_self_eq_true _) (List.find?_eq_none.mp found f h)
  | some g =>
    have same := List.find?_some found
    rw [beq_iff_eq] at same
    rw [t.same_path h (List.mem_of_find?_eq_some found) same]

def cutPath (root : Bytes) (path : List FileName) : Bytes := (dirText path).take (1022 - root.length)

/-- Where `walk_dir` cuts a path, nothing has the path that is left. -/
def Tree.Uncut (t : Tree) (root : Bytes) : Prop :=
  ∀ p ∈ t.files.map TreeFile.path ++ t.folders, ∀ q, q <+: p → fitsWalk root q = false →
    ∀ e ∈ t.files.map TreeFile.path ++ t.folders, ∀ d, d <+: e → dirText d ≠ cutPath root q

theorem uncut_short {t : Tree} {root : Bytes}
    (short : ∀ p ∈ t.files.map TreeFile.path ++ t.folders, ∀ q, q <+: p → fitsWalk root q = true) : t.Uncut root := by
  intro p hp q hq cut
  rw [short p hp q hq] at cut
  cases cut

theorem mem_walk {t : Tree} {root : Bytes} {f : TreeFile} (h : f ∈ t.walk root) : f ∈ t.files :=
  List.mem_of_mem_filter h

theorem dirText_cons (d e : FileName) (ds : List FileName) :
    dirText (d :: e :: ds) = d.bytes ++ slash :: dirText (e :: ds) := rfl

theorem name_front (d : FileName) (ds : List FileName) : d.bytes <+: dirText (d :: ds) := by
  cases ds with
  | nil => exact List.prefix_rfl
  | cons e ds => exact ⟨_, (dirText_cons d e ds).symm⟩

theorem dirText_front {name : Bytes} (free : slash ∉ name) {path : List FileName}
    (h : (name ++ [slash]) <+: dirText path) :
    ∃ d e ds, path = d :: e :: ds ∧ d.bytes = name := by
  cases path with
  | nil =>
    exact absurd (List.prefix_nil.mp h) (List.append_ne_nil_of_right_ne_nil _ (List.cons_ne_nil _ _))
  | cons d ds =>
    cases ds with
    | nil =>
      have mem : slash ∈ d.bytes := h.subset (List.mem_append_right _ (List.mem_singleton.mpr rfl))
      exact absurd mem d.slashFree
    | cons e ds =>
      refine ⟨d, e, ds, rfl, ?_⟩
      obtain ⟨rest, split⟩ := h
      rw [dirText_cons, List.append_assoc, List.singleton_append] at split
      have stop : ∀ text rest : Bytes, slash ∉ text → (text ++ slash :: rest).takeWhile (· != slash) = text := by
        intro text rest free
        rw [List.takeWhile_append_of_pos fun c hc => bne_iff_ne.mpr fun same : c = slash => free (same ▸ hc),
          List.takeWhile_cons_of_neg (by simp), List.append_nil]
      rw [← stop name rest free, split, stop _ _ d.slashFree]

end Cerco.FileTree
