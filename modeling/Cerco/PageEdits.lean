import Cerco.ByteSearch
import Cerco.HtmlEscape
import Cerco.RequestGrammar

set_option autoImplicit false

/-!
# The two edits of a finished page

`apply_page_title` replaces what stands in the first title element and
`dev_inject_live_script` puts its script behind the first `<head>`.
-/
namespace Cerco.PageEdits
open Cerco.Alloc Cerco.ByteMemory Cerco.ByteSearch Cerco.CString Cerco.Connection Cerco.HtmlEscape Cerco.Request Cerco.RequestGrammar
  Cerco.Server

theorem wbufFind_some {b : Wbuf} {start i : ℕ} {needle : Bytes} (h : wbufFind b start needle = some i) :
    ∃ pre post, FirstAt needle (b.data.drop start) pre post ∧ i = start + pre.length ∧
      i + needle.length ≤ b.data.length := by
  unfold wbufFind at h
  split at h
  · cases h
  · rename_i guard
    obtain ⟨hit, inside, none⟩ := List.find?_range_eq_some.mp h
    have inside := List.mem_range.mp inside
    simp only [Bool.and_eq_true, decide_eq_true_eq, beq_iff_eq] at hit
    obtain ⟨from_, found⟩ := hit
    have shift : b.data.drop i = (b.data.drop start).drop (i - start) := by
      rw [List.drop_drop, Nat.add_sub_cancel' from_]
    rw [shift] at found
    obtain ⟨split, len⟩ := occurs_split found (by rw [List.length_drop]; omega)
    refine ⟨_, _, ⟨split, fun p q other => ?_⟩, by rw [len]; omega, by omega⟩
    rw [len]
    by_contra before
    obtain ⟨there, room⟩ := split_occurs other
    rw [List.drop_drop] at there
    rw [List.length_drop] at room
    have skipped := none (start + p.length) (by omega)
    rw [there] at skipped
    simp at skipped

theorem wbufFind_none {b : Wbuf} {start : ℕ} {needle : Bytes} (h : wbufFind b start needle = none)
    (text : needle ≠ []) (le : start ≤ b.data.length) (p q : Bytes) : b.data.drop start ≠ p ++ needle ++ q := by
  intro there
  obtain ⟨found, room⟩ := split_occurs there
  have pos := List.length_pos_iff.mpr text
  rw [List.length_drop] at room
  rw [List.drop_drop] at found
  unfold wbufFind at h
  rw [if_neg (by omega)] at h
  have skipped := List.find?_eq_none.mp h (start + p.length) (List.mem_range.mpr (by omega))
  rw [found] at skipped
  simp at skipped

def titleOpen : Bytes := ascii "<title>"
def titleClose : Bytes := ascii "</title>"
def headOpen : Bytes := ascii "<head>"

/-- The body became `body`, or the arena had no room for it and nothing changed. -/
def Rewritten (r : Req) (body : Bytes) (injected : Bool) (out : Arena × Req) : Prop :=
  out.2 = { r with resp := ⟨body, body.length⟩, headInjected := r.headInjected || injected } ∨
    ¬ out.1.Served ∧ out.2 = r

theorem splice_rewritten (a : Arena) (r : Req) {lo hi : ℕ} {text pre post : Bytes} (injected : Bool)
    (front : r.resp.data.take lo = pre) (back : r.resp.data.drop hi = post) :
    Rewritten r (pre ++ text ++ post) injected (splice a r lo hi text injected) := by
  subst front back
  unfold splice
  dsimp only
  generalize hm : arenaAlloc a (r.resp.data.take lo ++ text ++ r.resp.data.drop hi).length = made
  obtain ⟨_ | p, b⟩ := made
  · refine .inr ⟨fun served => ?_, rfl⟩
    have lost := arenaAlloc_served (a := a) (by rw [hm]; exact served)
    rw [hm] at lost
    exact Bool.noConfusion lost.2
  · exact .inl rfl

/-- The first title element: what is before, in and behind it. -/
structure TitleAt (body pre mid post : Bytes) : Prop where
  opened : FirstAt titleOpen body pre (mid ++ titleClose ++ post)
  closed : FirstAt titleClose (mid ++ titleClose ++ post) mid post

theorem escape_nulFree {t : Bytes} (h : 0 ∉ t) : 0 ∉ escape t := by
  have texts : ∀ c, c ≠ 0 → 0 ∉ (rep c).getD [c] := by
    intro c hc
    by_cases amp : c = 38
    · subst amp; decide
    by_cases lt : c = 60
    · subst lt; decide
    by_cases gt : c = 62
    · subst gt; decide
    by_cases quot : c = 34
    · subst quot; decide
    by_cases apos : c = 39
    · subst apos; decide
    have none : rep c = none := by simp only [rep, amp, lt, gt, quot, apos, ↓reduceIte]
    rw [none]
    exact fun h => hc (List.mem_singleton.mp h).symm
  induction t with
  | nil => exact List.not_mem_nil
  | cons c t ih =>
    rw [escape_cons]
    simp only [List.mem_cons, not_or] at h
    intro hm
    obtain hm | hm := List.mem_append.mp hm
    · exact texts c (Ne.symm h.1) hm
    · exact ih h.2 hm

theorem applyPageTitle_cases (a : Arena) (r : Req) {t : Bytes} (nulFree : 0 ∉ t)
    (title : r.pageTitle = some (escape t)) (fits : r.resp.data.length ≤ r.resp.cap) :
    (∃ pre mid post, TitleAt r.resp.data pre mid post ∧
      Rewritten r (pre ++ titleOpen ++ escape t ++ (titleClose ++ post)) false (applyPageTitle a r)) ∨
    (∀ p q s, r.resp.data ≠ p ++ titleOpen ++ q ++ titleClose ++ s) ∧ applyPageTitle a r = (a, r) := by
  unfold applyPageTitle
  rw [title]
  dsimp only
  by_cases empty : r.resp.cap = 0
  · rw [if_pos empty]
    refine .inr ⟨fun p q s h => ?_, rfl⟩
    rw [empty] at fits
    have len := congrArg List.length h
    simp only [List.length_append, show titleOpen.length = 7 from rfl] at len
    omega
  · rw [if_neg empty]
    cases opened : wbufFind r.resp 0 (ascii "<title>") with
    | none =>
      refine .inr ⟨fun p q s h => ?_, rfl⟩
      have none := wbufFind_none opened (by decide) (Nat.zero_le _) p (q ++ titleClose ++ s)
      rw [List.drop_zero, h] at none
      exact none (by simp only [List.append_assoc]; rfl)
    | some at_ =>
      obtain ⟨pre, rest, first, place, _⟩ := wbufFind_some opened
      rw [List.drop_zero] at first
      rw [Nat.zero_add] at place
      have behind : r.resp.data.drop (at_ + 7) = rest := by
        rw [first.split, place, ← show (pre ++ ascii "<title>").length = pre.length + 7 from List.length_append,
          List.drop_left]
      have inside : at_ + 7 ≤ r.resp.data.length := by
        rw [first.split, place, List.length_append, List.length_append,
          show (ascii "<title>").length = 7 from rfl]
        exact Nat.le_add_right _ _
      dsimp only
      cases close : wbufFind r.resp (at_ + 7) (ascii "</title>") with
      | none =>
        refine .inr ⟨fun p q s h => ?_, rfl⟩
        have none := wbufFind_none close (by decide) inside
        -- a later end tag would also come behind the first start tag
        have later := first.first p (q ++ titleClose ++ s) (by rw [h]; simp only [List.append_assoc]; rfl)
        obtain ⟨gap, hgap⟩ : ∃ gap, rest = gap ++ titleClose ++ s := by
          have start : (pre ++ ascii "<title>").length ≤ (p ++ titleOpen ++ q).length := by
            simp only [List.length_append, show titleOpen.length = 7 from rfl,
              show (ascii "<title>").length = 7 from rfl]
            omega
          have same : (pre ++ ascii "<title>") ++ rest = (p ++ titleOpen ++ q) ++ (titleClose ++ s) := by
            rw [← first.split, h]
            simp only [List.append_assoc]
          obtain ⟨gap, front, back⟩ | ⟨gap, front, back⟩ := List.append_eq_append_iff.mp same
          · exact ⟨gap, by rw [back, List.append_assoc]⟩
          · have none : gap = [] := by
              have := congrArg List.length front
              simp only [List.length_append] at this start
              exact List.length_eq_zero_iff.mp (by omega)
            rw [none, List.nil_append] at back
            exact ⟨[], by rw [← back]; rfl⟩
        exact none gap s (by rw [behind, hgap]; rfl)
      | some stop =>
        obtain ⟨mid, post, next, place', _⟩ := wbufFind_some close
        rw [behind] at next
        refine .inl ⟨pre, mid, post, ⟨next.split ▸ first, next.split ▸ next⟩, ?_⟩
        have cut : r.resp.data.drop stop = titleClose ++ post := by
          rw [place', ← List.drop_drop, behind, next.split, List.append_assoc, List.drop_left]
          rfl
        have front : r.resp.data.take (at_ + 7) = pre ++ titleOpen := by
          rw [first.split, place, ← show (pre ++ ascii "<title>").length = pre.length + 7 from List.length_append,
            List.take_left]
          rfl
        rw [cstr_of_nulFree (escape_nulFree nulFree)]
        exact splice_rewritten a r false front cut

/-- No content type was set, or one that starts with text/html in any case. -/
def HtmlType (r : Req) : Prop :=
  ∀ h, r.respHdrs.find? (fun h => strcaseeq h.1 (ascii "content-type")) = some h →
    strncaseeq h.2 (ascii "text/html") 9 = true

instance (r : Req) : Decidable (HtmlType r) :=
  match found : r.respHdrs.find? (fun h => strcaseeq h.1 (ascii "content-type")) with
  | none => isTrue fun h e => by rw [found] at e; cases e
  | some h =>
    decidable_of_iff (strncaseeq h.2 (ascii "text/html") 9 = true)
      ⟨fun yes k e => by rw [found] at e; cases e; exact yes, fun all => all h found⟩

variable {σ : Type}

theorem devInjectLiveScript_cases (env : Env σ) (a : Arena) (r : Req) (dev : env.cfg.devMode = true)
    (first : r.headInjected = false) (ok : r.status = 200) (html : HtmlType r)
    (fits : r.resp.data.length ≤ r.resp.cap) :
    (∃ pre post, FirstAt headOpen r.resp.data pre post ∧
      Rewritten r (pre ++ headOpen ++ liveScript ++ post) true (devInjectLiveScript env a r)) ∨
    (∀ p q, r.resp.data ≠ p ++ headOpen ++ q) ∧
      Rewritten r (liveScript ++ r.resp.data) true (devInjectLiveScript env a r) := by
  have due : (!env.cfg.devMode || r.headInjected || r.status != 200) = false := by rw [dev, first, ok]; rfl
  have typed : (((r.respHdrs.find? fun h => strcaseeq h.1 (ascii "content-type")).map (·.2)).isSome &&
      !strncaseeq (((r.respHdrs.find? fun h => strcaseeq h.1 (ascii "content-type")).map (·.2)).getD [])
        (ascii "text/html") 9) = false := by
    cases found : r.respHdrs.find? fun h => strcaseeq h.1 (ascii "content-type") with
    | none => rfl
    | some h =>
      have yes := html h found
      simp only [Option.map_some, Option.isSome_some, Option.getD_some, yes, Bool.not_true, Bool.and_false]
  have start : Rewritten r (liveScript ++ r.resp.data) true (splice a r 0 0 liveScript true) := by
    have front : r.resp.data.take 0 = [] := List.take_zero
    have back : r.resp.data.drop 0 = r.resp.data := List.drop_zero
    exact splice_rewritten a r true front back
  unfold devInjectLiveScript
  rw [due, if_neg Bool.false_ne_true]
  dsimp only
  rw [typed, if_neg Bool.false_ne_true]
  by_cases empty : r.resp.cap = 0
  · rw [if_pos empty]
    refine .inr ⟨fun p q h => ?_, start⟩
    have len := congrArg List.length h
    simp only [List.length_append, show headOpen.length = 6 from rfl] at len
    omega
  · rw [if_neg empty]
    cases opened : wbufFind r.resp 0 (ascii "<head>") with
    | none =>
      have none := wbufFind_none opened (by decide) (Nat.zero_le _)
      exact .inr ⟨fun p q h => none p q (by rw [List.drop_zero, h]; rfl), start⟩
    | some at_ =>
      obtain ⟨pre, post, here, place, _⟩ := wbufFind_some opened
      rw [List.drop_zero] at here
      rw [Nat.zero_add] at place
      have len : (pre ++ ascii "<head>").length = at_ + 6 := by rw [place, List.length_append]; rfl
      refine .inl ⟨pre, post, here, ?_⟩
      have front : r.resp.data.take (at_ + 6) = pre ++ headOpen := by
        rw [here.split, ← len, List.take_left]
        rfl
      have back : r.resp.data.drop (at_ + 6) = post := by
        rw [here.split, ← len, List.drop_left]
      exact splice_rewritten a r true front back

theorem title_escaped {a : Arena} {r : Req} {t : Bytes} (served : (apiRun (.title (escape t)) a r).1.Served) :
    (apiRun (.title (escape t)) a r).2.pageTitle = some (escape t) := by
  unfold apiRun at served ⊢
  dsimp only at served ⊢
  generalize hm : arenaAlloc a ((escape t).length + 1) = made at served ⊢
  obtain ⟨_ | p, b⟩ := made
  · have lost := arenaAlloc_served (a := a) (by rw [hm]; exact served)
    rw [hm] at lost
    exact Bool.noConfusion lost.2
  · rfl

theorem cercoTitle_run (a : Arena) (m : Mem) (r : Req) (t : Bytes) :
    apiRun (.title (escape (cstr t))) a r = ((cercoTitle a m r (some t)).2.1, (cercoTitle a m r (some t)).1) := by
  have need : (htmlEscape m (cstr t) none 0).1.getD 0 = (escape (cstr t)).length := by
    rw [htmlEscape, escapeNeed_eq, Nat.zero_add]
    rfl
  have nulFree : 0 ∉ cstr t := fun h => by
    have := List.mem_takeWhile_imp h
    simp at this
  unfold apiRun cercoTitle
  dsimp only
  rw [need]
  obtain ⟨_ | buf, b⟩ := arenaAlloc a ((escape (cstr t)).length + 1)
  · rfl
  · have text : cstr (escape (cstr t) ++ [0]) = escape (cstr t) := by
      have whole := cstr_of_nulFree (escape_nulFree nulFree)
      unfold cstr at whole ⊢
      rw [List.takeWhile_append_of_pos (List.takeWhile_eq_self_iff.mp whole)]
      exact List.append_nil _
    dsimp only
    rw [htmlEscape_load, text]

/-- The title edit changes what stands in the first title element, and the script is put in once behind the
first `<head>`, or else in front; without memory the body is left as it was. -/
theorem page_edits (env : Env σ) :
    (∀ (a : Arena) (m : Mem) (r : Req) (t : Bytes),
      apiRun (.title (escape (cstr t))) a r = ((cercoTitle a m r (some t)).2.1, (cercoTitle a m r (some t)).1) ∧
      ((cercoTitle a m r (some t)).2.1.Served →
        (cercoTitle a m r (some t)).1.pageTitle = some (escape (cstr t)))) ∧
    (∀ (a : Arena) (r : Req) (t : Bytes), 0 ∉ t → r.pageTitle = some (escape t) →
      r.resp.data.length ≤ r.resp.cap →
      (∀ p q s, r.resp.data = p ++ titleOpen ++ q ++ titleClose ++ s →
        ∃ pre mid post, TitleAt r.resp.data pre mid post ∧
          Rewritten r (pre ++ titleOpen ++ escape t ++ (titleClose ++ post)) false (applyPageTitle a r)) ∧
      ((¬ ∃ p q s, r.resp.data = p ++ titleOpen ++ q ++ titleClose ++ s) → applyPageTitle a r = (a, r))) ∧
    ∀ (a : Arena) (r : Req), env.cfg.devMode = true → r.headInjected = false → r.status = 200 → HtmlType r →
      r.resp.data.length ≤ r.resp.cap →
      (∀ p q, r.resp.data = p ++ headOpen ++ q → ∃ pre post, FirstAt headOpen r.resp.data pre post ∧
        Rewritten r (pre ++ headOpen ++ liveScript ++ post) true (devInjectLiveScript env a r)) ∧
      ((¬ ∃ p q, r.resp.data = p ++ headOpen ++ q) →
        Rewritten r (liveScript ++ r.resp.data) true (devInjectLiveScript env a r)) ∧
      ((devInjectLiveScript env a r).1.Served → ∀ b, devInjectLiveScript env b (devInjectLiveScript env a r).2 =
        (b, (devInjectLiveScript env a r).2)) := by
  refine ⟨fun a m r t => ⟨cercoTitle_run a m r t, fun served => ?_⟩, ?_, ?_⟩
  · have run := cercoTitle_run a m r t
    have text := @title_escaped a r (cstr t) (by rw [run]; exact served)
    rwa [run] at text
  · intro a r t nulFree title fits
    obtain done | ⟨none, same⟩ := applyPageTitle_cases a r nulFree title fits
    · refine ⟨fun p q s _ => done, fun absent => ?_⟩
      obtain ⟨pre, mid, post, here, _⟩ := done
      refine absurd ⟨pre, mid, post, ?_⟩ absent
      rw [here.opened.split]
      simp only [List.append_assoc]
    · exact ⟨fun p q s h => absurd h (none p q s), fun _ => same⟩
  · intro a r dev first ok html fits
    have cases_ := devInjectLiveScript_cases env a r dev first ok html fits
    refine ⟨fun p q h => ?_, fun absent => ?_, fun served b => ?_⟩
    · obtain done | ⟨none, _⟩ := cases_
      · exact done
      · exact absurd h (none p q)
    · obtain ⟨pre, post, here, _⟩ | ⟨_, done⟩ := cases_
      · exact absurd ⟨pre, post, here.split⟩ absent
      · exact done
    · have injected : (devInjectLiveScript env a r).2.headInjected = true := by
        obtain ⟨_, _, _, done | lost⟩ | ⟨_, done | lost⟩ := cases_
        · rw [done]
          exact Bool.or_true _
        · exact absurd served lost.1
        · rw [done]
          exact Bool.or_true _
        · exact absurd served lost.1
      generalize (devInjectLiveScript env a r).2 = s at injected
      unfold devInjectLiveScript
      rw [injected, Bool.or_true, Bool.true_or, if_pos rfl]

def devEnv : Env Scan := { stockEnv rootTable with cfg := { stockConfig with devMode := true } }

/-- A finished page whose handler called `cerco_title` with `R&D`. -/
def titledPage : Req :=
  { reqSetup 0 with
    resp := ⟨ascii "<head><title>x</title></head><title>y</title>", 4096⟩
    pageTitle := some (escape (ascii "R&D")) }

def pageArena : Arena := arenaInit (Arena.zero fun _ _ => some 4096) 16384 0

theorem page_edits_titled :
    (∃ pre mid post, TitleAt titledPage.resp.data pre mid post ∧
      Rewritten titledPage (pre ++ titleOpen ++ escape (ascii "R&D") ++ (titleClose ++ post)) false
        (applyPageTitle pageArena titledPage)) ∧
    ∃ pre post, FirstAt headOpen titledPage.resp.data pre post ∧
      Rewritten titledPage (pre ++ headOpen ++ liveScript ++ post) true
        (devInjectLiveScript devEnv pageArena titledPage) :=
  have edits := page_edits devEnv
  ⟨(edits.2.1 pageArena titledPage (ascii "R&D") (by decide) rfl (by decide)).1 (ascii "<head>") (ascii "x")
      (ascii "</head><title>y</title>") (by decide),
    (edits.2.2 pageArena titledPage rfl rfl rfl (by decide) (by decide)).1 []
      (ascii "<title>x</title></head><title>y</title>") (by decide)⟩

end Cerco.PageEdits
