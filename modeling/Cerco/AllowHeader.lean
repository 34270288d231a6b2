import Cerco.RequestGrammar

set_option autoImplicit false

/-!
# The methods an answer allows

`router_find` collects a bit for the method of every route that fits the path. Two copies of
one printer turn the mask into an `Allow` line, each with its own list of methods, and
neither of them prints the bit of HEAD.
-/
namespace Cerco.AllowHeader
open Cerco.Alloc Cerco.CString Cerco.Request Cerco.Response Cerco.Router Cerco.Connection Cerco.Dispatch
  Cerco.Server Cerco.RequestGrammar

variable {σ : Type}

/-- The names behind `Allow:`, without the blanks before them. -/
def listedMethods (line : Bytes) : List Bytes := ((line.drop 7).splitOn 44).map (·.dropWhile (· = 32))

def Lists (line m : Bytes) : Prop := ascii "Allow: " <+: line ∧ m ∈ listedMethods line

def printed (mask : ℕ) (items : List (ℕ × Bytes)) : List Bytes :=
  (items.filter fun x => mask.testBit x.1).map (·.2)

def tailText (names : List Bytes) : Bytes := names.flatMap fun n => ascii ", " ++ n

theorem joinAllow_more (mask : ℕ) (items : List (ℕ × Bytes)) {acc : Bytes} (h : acc ≠ []) :
    joinAllow mask items acc = acc ++ tailText (printed mask items) := by
  induction items generalizing acc with
  | nil => exact (List.append_nil acc).symm
  | cons x items ih =>
    obtain ⟨bit, name⟩ := x
    rw [joinAllow]
    cases hb : mask.testBit bit with
    | true =>
      have longer : acc ++ ascii ", " ++ name ≠ [] := by simp [h]
      rw [if_pos rfl, if_neg h, ih longer]
      simp [printed, tailText, hb]
    | false =>
      rw [if_neg Bool.false_ne_true, ih h]
      simp [printed, hb]

theorem joinAllow_eq (mask : ℕ) {items : List (ℕ × Bytes)} (full : ∀ x ∈ items, x.2 ≠ []) :
    joinAllow mask items [] = match printed mask items with
      | [] => []
      | n :: ns => n ++ tailText ns := by
  induction items with
  | nil => rfl
  | cons x items ih =>
    obtain ⟨bit, name⟩ := x
    have named : name ≠ [] := full _ List.mem_cons_self
    rw [joinAllow]
    cases hb : mask.testBit bit with
    | true =>
      rw [if_pos rfl, if_pos rfl]
      change joinAllow mask items name = _
      rw [joinAllow_more mask items named]
      simp [printed, hb]
    | false =>
      rw [if_neg Bool.false_ne_true, ih fun y hy => full y (List.mem_cons_of_mem _ hy)]
      simp [printed, hb]

def Plain (n : Bytes) : Prop := n ≠ [] ∧ 44 ∉ n ∧ n.head? ≠ some 32

instance (n : Bytes) : Decidable (Plain n) := inferInstanceAs (Decidable (_ ∧ _))

theorem dropWhile_plain {n : Bytes} (h : Plain n) : n.dropWhile (· = 32) = n := by
  obtain ⟨full, _, first⟩ := h
  cases n with
  | nil => exact absurd rfl full
  | cons c n =>
    rw [List.dropWhile_cons_of_neg]
    intro e
    exact first (congrArg some (of_decide_eq_true e))

theorem intercalate_names (n : Bytes) (ns : List Bytes) :
    [44].intercalate (n :: ns.map fun x => 32 :: x) = n ++ tailText ns := by
  induction ns generalizing n with
  | nil => simp [tailText, List.intercalate]
  | cons m ns ih =>
    have step : [44].intercalate (n :: (32 :: m) :: ns.map fun x => 32 :: x) =
        n ++ [44] ++ [44].intercalate ((32 :: m) :: ns.map fun x => 32 :: x) := by
      simp [List.intercalate]
    rw [List.map_cons, step, ih]
    simp [tailText, ascii]

theorem listedMethods_names {n : Bytes} {ns : List Bytes} (plain : ∀ m ∈ n :: ns, Plain m) :
    listedMethods (ascii "Allow: " ++ (n ++ tailText ns)) = n :: ns := by
  have cut : (n ++ tailText ns).splitOn 44 = n :: ns.map fun x => 32 :: x := by
    rw [← intercalate_names]
    refine List.splitOn_intercalate 44 ?_ (List.cons_ne_nil _ _)
    intro m hm
    obtain rfl | hm := List.mem_cons.mp hm
    · exact (plain m List.mem_cons_self).2.1
    · obtain ⟨x, hx, rfl⟩ := List.mem_map.mp hm
      intro h
      obtain e | h := List.mem_cons.mp h
      · exact absurd e (by decide)
      · exact (plain x (List.mem_cons_of_mem _ hx)).2.1 h
  have text : (ascii "Allow: " ++ (n ++ tailText ns)).drop 7 = n ++ tailText ns := rfl
  unfold listedMethods
  rw [text, cut, List.map_cons, dropWhile_plain (plain n List.mem_cons_self), List.map_map]
  congr 1
  refine (List.map_congr_left fun m hm => ?_).trans (List.map_id ns)
  change (32 :: m).dropWhile (· = 32) = m
  rw [List.dropWhile_cons_of_pos (by decide)]
  exact dropWhile_plain (plain m (List.mem_cons_of_mem _ hm))

theorem lists_allowHdr (mask : ℕ) {items : List (ℕ × Bytes)} (plain : ∀ x ∈ items, Plain x.2) (m : Bytes) :
    Lists (allowHdr mask items) m ↔ m ∈ printed mask items ∨
      printed mask items = [] ∧ m ∈ [ascii "GET", ascii "HEAD", ascii "OPTIONS"] := by
  have taken : ∀ n ∈ printed mask items, Plain n := by
    intro n hn
    obtain ⟨x, hx, rfl⟩ := List.mem_map.mp hn
    exact plain x (List.mem_of_mem_filter hx)
  have front : ascii "Allow: " <+: allowHdr mask items := List.prefix_append _ _
  unfold Lists
  rw [and_iff_right front]
  unfold allowHdr
  rw [joinAllow_eq mask fun x hx => (plain x hx).1]
  cases hp : printed mask items with
  | nil =>
    dsimp only
    rw [if_pos rfl]
    have fixed : listedMethods (ascii "Allow: " ++ ascii "GET, HEAD, OPTIONS") =
      [ascii "GET", ascii "HEAD", ascii "OPTIONS"] := by decide
    rw [fixed]
    simp
  | cons n ns =>
    rw [hp] at taken
    have full : n ++ tailText ns ≠ [] := by
      simp [(taken n List.mem_cons_self).1]
    dsimp only
    rw [if_neg full, listedMethods_names taken]
    simp

theorem mem_printed {mask : ℕ} {items : List (ℕ × Bytes)} {m : Bytes} :
    m ∈ printed mask items ↔ ∃ b, (b, m) ∈ items ∧ mask.testBit b = true := by
  unfold printed
  rw [List.mem_map]
  constructor
  · rintro ⟨⟨b, n⟩, h, rfl⟩
    exact ⟨b, List.mem_filter.mp h⟩
  · rintro ⟨b, h⟩
    exact ⟨(b, m), List.mem_filter.mpr h, rfl⟩

def sixMethods : List Bytes := stdMethods.take 6

def withMethod (r : Req) (m : Bytes) : Req := { r with method := some m }

/-- The route fits the path of the request. -/
def Fits (rr : RtRoute) (r : Req) : Prop :=
  ∃ segs, splitPath (cstr (r.path.getD [])) 64 = some segs ∧ matchSegs rr.segs segs = true

def Offers (rt : List RtRoute) (r : Req) (name : Bytes) : Prop :=
  ∃ rr ∈ rt, Fits rr r ∧ SameText rr.method name

section Probe
variable {rt : List RtRoute} {a : Arena} {r : Req}

/-- A lookup that finds anything had a copy of the path and its segments; every request for
this path is then looked up with them. -/
theorem probe_walks {code : ℕ} (h : (routerProbe rt a r none 0).1 = code) (found : code ≠ 0) :
    ∃ a' segs, splitPath (cstr (r.path.getD [])) 64 = some segs ∧
      ∀ r' : Req, r'.path = r.path → routerFind rt a r' none 0 =
        findLoop segs (reqMethod r') (strcaseeq (reqMethod r') (ascii "HEAD")) rt .miss 0 a' r' := by
  unfold routerProbe routerFind at h
  cases hd : arenaStrdup a (r.path.getD []) with
  | mk work b =>
    rw [hd] at h
    cases work with
    | none => exact absurd h.symm found
    | some work =>
      have whole := arenaStrdup_some (congrArg Prod.fst hd)
      dsimp only at h
      cases hs : splitPath work 64 with
      | none =>
        rw [hs] at h
        exact absurd h.symm found
      | some segs =>
        refine ⟨b, segs, by rw [whole]; exact hs, fun r' same => ?_⟩
        unfold routerFind
        rw [same, hd]
        dsimp only
        rw [hs]

theorem fits_iff {segs : List Bytes} (split : splitPath (cstr (r.path.getD [])) 64 = some segs)
    (rr : RtRoute) : Fits rr r ↔ matchSegs rr.segs segs = true := by
  unfold Fits
  rw [split]
  exact ⟨fun ⟨_, e, h⟩ => Option.some.inj e ▸ h, fun h => ⟨segs, rfl, h⟩⟩

theorem served_iff {segs : List Bytes} (split : splitPath (cstr (r.path.getD [])) 64 = some segs)
    (rt : List RtRoute) (m : Bytes) :
    (rt.any fun rr => matchSegs rr.segs segs && methodServed m (strcaseeq m (ascii "HEAD")) rr) = true ↔
      Offers rt r m ∨ SameText m (ascii "HEAD") ∧ Offers rt r (ascii "GET") := by
  unfold Offers
  simp only [List.any_eq_true, methodServed, Bool.and_eq_true, Bool.or_eq_true, sameText_iff, fits_iff split]
  constructor
  · rintro ⟨rr, mem, fits, same | ⟨head, get⟩⟩
    · exact .inl ⟨rr, mem, fits, same⟩
    · exact .inr ⟨head, rr, mem, fits, get⟩
  · rintro (⟨rr, mem, fits, same⟩ | ⟨head, rr, mem, fits, get⟩)
    · exact ⟨rr, mem, fits, .inl same⟩
    · exact ⟨rr, mem, fits, .inr ⟨head, get⟩⟩

theorem probe_served {code : ℕ} (h : (routerProbe rt a r none 0).1 = code) (found : code ≠ 0)
    (r' : Req) (same : r'.path = r.path) :
    (routerProbe rt a r' none 0).1 = 1 ↔
      Offers rt r (reqMethod r') ∨ SameText (reqMethod r') (ascii "HEAD") ∧ Offers rt r (ascii "GET") := by
  obtain ⟨a', segs, split, walk⟩ := probe_walks h found
  have first := (findLoop_first segs (reqMethod r') (strcaseeq (reqMethod r') (ascii "HEAD")) rt
    .miss 0 a' r').2
  rw [← served_iff split]
  unfold routerProbe
  rw [walk r' same]
  dsimp only
  rw [first]
  by_cases any : (rt.any fun rr => matchSegs rr.segs segs &&
      methodServed (reqMethod r') (strcaseeq (reqMethod r') (ascii "HEAD")) rr) = true
  · rw [if_pos any]
    exact iff_of_true rfl any
  · rw [if_neg any]
    refine iff_of_false ?_ any
    by_cases hit : (rt.any fun rr => matchSegs rr.segs segs) = true
    · rw [if_pos hit]
      decide
    · rw [if_neg hit]
      decide

theorem probe_mask (h : (routerProbe rt a r none 0).1 = 2) (b : ℕ) :
    (routerProbe rt a r none 0).2.mask.testBit b = true ↔
      ∃ name, stdMethods[b]? = some name ∧ Offers rt r name := by
  obtain ⟨a', segs, split, walk⟩ := probe_walks h (by decide)
  have unserved : ¬ (rt.any fun rr => matchSegs rr.segs segs &&
      methodServed (reqMethod r) (strcaseeq (reqMethod r) (ascii "HEAD")) rr) = true := by
    intro any
    have one := (probe_served h (by decide) r rfl).mpr ((served_iff split rt _).mp any)
    rw [h] at one
    cases one
  have none_served : ∀ rr ∈ rt, matchSegs rr.segs segs = true →
      methodServed (reqMethod r) (strcaseeq (reqMethod r) (ascii "HEAD")) rr = false := by
    intro rr mem fits
    rw [← Bool.not_eq_true]
    intro served
    exact unserved (List.any_eq_true.mpr ⟨rr, mem, by rw [fits, served]; rfl⟩)
  have own : (routerProbe rt a r none 0).2 = routerFind rt a r none 0 := rfl
  rw [own, walk r rfl, findLoop_mask segs _ _ rt .miss 0 a' r none_served b, Nat.zero_testBit]
  simp only [Bool.false_eq_true, false_or, methodBit_std, Offers, fits_iff split]
  constructor
  · rintro ⟨rr, mem, fits, name, bit, same⟩
    exact ⟨name, bit, rr, mem, fits, same⟩
  · rintro ⟨name, bit, rr, mem, fits, same⟩
    exact ⟨rr, mem, fits, name, bit, same⟩

theorem printed_offers (h : (routerProbe rt a r none 0).1 = 2) {items : List (ℕ × Bytes)}
    (bits : ∀ x ∈ items, stdMethods[x.1]? = some x.2) (m : Bytes) :
    m ∈ printed (routerProbe rt a r none 0).2.mask items ↔ m ∈ items.map (·.2) ∧ Offers rt r m := by
  rw [mem_printed]
  constructor
  · rintro ⟨b, mem, set⟩
    obtain ⟨name, bit, offered⟩ := (probe_mask h b).mp set
    have same : name = m := Option.some.inj (bit.symm.trans (bits _ mem))
    exact ⟨List.mem_map.mpr ⟨_, mem, rfl⟩, same ▸ offered⟩
  · rintro ⟨listed, offered⟩
    obtain ⟨⟨b, n⟩, mem, rfl⟩ := List.mem_map.mp listed
    exact ⟨b, mem, (probe_mask h b).mpr ⟨n, bits _ mem, offered⟩⟩

end Probe

/-- The list that the answer to `r` is printed from. -/
def itemsFor (r : Req) : List (ℕ × Bytes) :=
  if strcaseeq (reqMethod r) (ascii "OPTIONS") then optionsItems else allowItems

theorem itemsFor_cases (r : Req) :
    SameText (reqMethod r) (ascii "OPTIONS") ∧ itemsFor r = optionsItems ∨ itemsFor r = allowItems := by
  unfold itemsFor
  by_cases h : strcaseeq (reqMethod r) (ascii "OPTIONS") = true
  · rw [if_pos h]
    exact .inl ⟨(sameText_iff _ _).mp h, rfl⟩
  · rw [if_neg h]
    exact .inr rfl

def ownMethods : List Bytes :=
  [ascii "POST", ascii "PUT", ascii "PATCH", ascii "DELETE", ascii "OPTIONS"]

structure ItemsKnown (items : List (ℕ × Bytes)) : Prop where
  plain : ∀ x ∈ items, Plain x.2
  bits : ∀ x ∈ items, stdMethods[x.1]? = some x.2
  get : ascii "GET" ∈ items.map (·.2)
  own : ∀ m ∈ items.map (·.2), m = ascii "GET" ∨ m ∈ ownMethods
  head : ascii "HEAD" ∉ items.map (·.2)
  rest : ∀ m ∈ sixMethods, m = ascii "HEAD" ∨ m ∈ items.map (·.2)

theorem optionsItems_known : ItemsKnown optionsItems := by
  constructor <;> decide

theorem allowItems_known : ItemsKnown allowItems := by
  constructor <;> decide

section Truth
variable {rt : List RtRoute} {a : Arena} {r : Req}

theorem itemsFor_known (r : Req) : ItemsKnown (itemsFor r) := by
  obtain ⟨_, e⟩ | e := itemsFor_cases r
  · rw [e]
    exact optionsItems_known
  · rw [e]
    exact allowItems_known

/-- A method of its own that is offered is printed: a request with OPTIONS that got this far
has no route for OPTIONS. -/
theorem own_printed (h : (routerProbe rt a r none 0).1 = 2) {m : Bytes} (own : m ∈ ownMethods)
    (offered : Offers rt r m) : m ∈ printed (routerProbe rt a r none 0).2.mask (itemsFor r) := by
  rw [printed_offers h (itemsFor_known r).bits]
  refine ⟨?_, offered⟩
  obtain ⟨options, e⟩ | e := itemsFor_cases r
  · by_cases last : m = ascii "OPTIONS"
    · have same : ∀ rr : RtRoute, SameText rr.method m → SameText rr.method (reqMethod r) :=
        fun rr h => h.trans (last ▸ options.symm)
      obtain ⟨rr, mem, fits, named⟩ := offered
      have one := (probe_served h (by decide) r rfl).mpr (.inl ⟨rr, mem, fits, same rr named⟩)
      rw [h] at one
      cases one
    · rw [e]
      have listed : ∀ m ∈ ownMethods, m ≠ ascii "OPTIONS" → m ∈ optionsItems.map (·.2) := by decide
      exact listed m own last
  · rw [e]
    have listed : ∀ m ∈ ownMethods, m ∈ allowItems.map (·.2) := by decide
    exact listed m own

/-- The `Allow` line of the answer to `r`. -/
def allowLine (rt : List RtRoute) (a : Arena) (r : Req) : Bytes :=
  allowHdr (routerProbe rt a r none 0).2.mask (itemsFor r)

/-- The line is right for every method that a route can have. -/
def Truthful (rt : List RtRoute) (a : Arena) (r : Req) : Prop :=
  ∀ m ∈ sixMethods, Lists (allowLine rt a r) m ↔ (routerProbe rt a (withMethod r m) none 0).1 = 1

/-- No GET and no HEAD route fits, and some other printed method does. -/
def OwnOnly (rt : List RtRoute) (r : Req) : Prop :=
  ¬ Offers rt r (ascii "GET") ∧ ¬ Offers rt r (ascii "HEAD") ∧ ∃ m ∈ ownMethods, Offers rt r m

theorem truthful_own (h : (routerProbe rt a r none 0).1 = 2) (truth : Truthful rt a r) : OwnOnly rt r := by
  have known := itemsFor_known r
  have lists := lists_allowHdr (routerProbe rt a r none 0).2.mask known.plain
  have taken := printed_offers h known.bits
  have routed := fun m => probe_served h (by decide) (withMethod r m) rfl
  have nonempty : printed (routerProbe rt a r none 0).2.mask (itemsFor r) ≠ [] := by
    intro none_
    have get : (routerProbe rt a (withMethod r (ascii "GET")) none 0).1 = 1 :=
      (truth (ascii "GET") (by decide)).mp ((lists _).mpr (.inr ⟨none_, List.mem_cons_self⟩))
    have offered : Offers rt r (ascii "GET") := by
      obtain offered | ⟨_, offered⟩ := (routed _).mp get
      · exact offered
      · exact offered
    have shown := (taken (ascii "GET")).mpr ⟨known.get, offered⟩
    rw [none_] at shown
    cases shown
  have headless : ¬ (routerProbe rt a (withMethod r (ascii "HEAD")) none 0).1 = 1 := by
    intro head
    obtain shown | ⟨none_, _⟩ := (lists _).mp ((truth (ascii "HEAD") (by decide)).mpr head)
    · exact known.head ((taken _).mp shown).1
    · exact nonempty none_
  have getless : ¬ Offers rt r (ascii "GET") := fun get => headless ((routed _).mpr (.inr ⟨rfl, get⟩))
  refine ⟨getless, fun head => headless ((routed _).mpr (.inl head)), ?_⟩
  obtain ⟨m, shown⟩ := List.exists_mem_of_ne_nil _ nonempty
  obtain ⟨listed, offered⟩ := (taken m).mp shown
  obtain rfl | own := known.own m listed
  · exact absurd offered getless
  · exact ⟨m, own, offered⟩

theorem own_truthful (h : (routerProbe rt a r none 0).1 = 2) (own : OwnOnly rt r) : Truthful rt a r := by
  obtain ⟨getless, headless, w, hw, offered⟩ := own
  have known := itemsFor_known r
  have nonempty : printed (routerProbe rt a r none 0).2.mask (itemsFor r) ≠ [] :=
    List.ne_nil_of_mem (own_printed h hw offered)
  intro m six
  have lists : Lists (allowLine rt a r) m ↔ m ∈ (itemsFor r).map (·.2) ∧ Offers rt r m := by
    unfold allowLine
    rw [lists_allowHdr _ known.plain, printed_offers h known.bits, or_iff_left fun none_ => nonempty none_.1]
  rw [lists, probe_served h (by decide) (withMethod r m) rfl]
  change _ ↔ Offers rt r m ∨ SameText m (ascii "HEAD") ∧ Offers rt r (ascii "GET")
  rw [or_iff_left fun get => getless get.2]
  obtain rfl | listed := known.rest m six
  · exact iff_of_false (fun shown => headless shown.2) headless
  · exact and_iff_right listed

end Truth

def allowStatus (r : Req) : ℕ := if strcaseeq (reqMethod r) (ascii "OPTIONS") then 204 else 405

def allowBody (r : Req) : Bytes :=
  if strcaseeq (reqMethod r) (ascii "OPTIONS") then [] else ascii "method not allowed\n"

/-- Only other methods fit the path of request `k`. -/
structure Mismatched (env : Env σ) (x : Ctx σ) (k : ℕ) : Prop where
  function : sfIsSfPath (cstr ((x.c.objs k).path.getD [])) = false
  reserved : strncaseeq (cstr ((x.c.objs k).path.getD [])) (ascii "/__cerco/") 9 = false
  probe : (routerProbe env.routes x.c.arena (x.c.objs k) none 0).1 = 2

theorem dispatch_allow {env : Env σ} {x : Ctx σ} {k : ℕ} (h : Mismatched env x k) :
    dispatchReq env x k =
      connSendSimple env
        ((x.withReq k (probeReq env.routes)).withReq k (setStatus (allowStatus (x.c.objs k))))
        (allowStatus (x.c.objs k)) (some (allowLine env.routes x.c.arena (x.c.objs k)))
        (allowBody (x.c.objs k)) false := by
  obtain ⟨function, reserved, probe⟩ := h
  have second : ¬ (routerProbe env.routes x.c.arena (x.c.objs k) none 0).1 = 1 := by
    rw [probe]
    decide
  unfold dispatchReq
  dsimp only
  rw [if_neg (by rw [function]; decide), if_neg (by rw [reserved]; decide), if_neg second, if_pos probe]
  unfold allowStatus allowBody allowLine itemsFor
  by_cases options : strcaseeq (reqMethod (x.c.objs k)) (ascii "OPTIONS") = true
  · rw [if_pos options, if_pos options, if_pos options, if_pos options]
  · rw [if_neg options, if_neg options, if_neg options, if_neg options]
    rfl

/-- The answer to a request for which only other methods fit tells the truth exactly when no
GET and no HEAD route fits and the line is not the fixed one. -/
theorem allow_truthful_iff (env : Env σ) (x : Ctx σ) (k : ℕ) (h : Mismatched env x k) :
    dispatchReq env x k =
      connSendSimple env
        ((x.withReq k (probeReq env.routes)).withReq k (setStatus (allowStatus (x.c.objs k))))
        (allowStatus (x.c.objs k)) (some (allowLine env.routes x.c.arena (x.c.objs k)))
        (allowBody (x.c.objs k)) false ∧
    (Truthful env.routes x.c.arena (x.c.objs k) ↔ OwnOnly env.routes (x.c.objs k)) :=
  ⟨dispatch_allow h, truthful_own h.probe, own_truthful h.probe⟩

def formRoutes : List RouteEntry := [⟨ascii "POST", ascii "/form", 3⟩]

def formGet : Req := { reqSetup 0 with method := some (ascii "GET"), path := some (ascii "/form") }

/-- A server that has just read a GET for the form. -/
def formCtx : Ctx Scan :=
  ⟨srvStart (stockEnv formRoutes), 0, { freshConn (stockEnv formRoutes) 0 0 with
    objs := fun _ => formGet, arena := roomyArena }⟩

theorem formCtx_mismatched : Mismatched (stockEnv formRoutes) formCtx 1 :=
  ⟨by decide, by decide, by decide⟩

/-- The form can only be posted, and the answer to a GET says so. -/
theorem allow_truthful_iff_form :
    Mismatched (stockEnv formRoutes) formCtx 1 ∧
    (Truthful (stockEnv formRoutes).routes roomyArena formGet ↔
      OwnOnly (stockEnv formRoutes).routes formGet) ∧
    allowLine (stockEnv formRoutes).routes roomyArena formGet = ascii "Allow: POST" :=
  ⟨formCtx_mismatched, (allow_truthful_iff (stockEnv formRoutes) formCtx 1 formCtx_mismatched).2,
    by decide⟩

/-- A HEAD request for the page is routed, and the line for a DELETE does not list it. -/
theorem head_unlisted :
    (routerProbe userRt roomyArena userDelete none 0).1 = 2 ∧ ¬ Truthful userRt roomyArena userDelete := by
  refine ⟨by decide, fun truth => ?_⟩
  have listed := (truth (ascii "HEAD") (by decide)).mpr (by decide)
  have line : allowLine userRt roomyArena userDelete = ascii "Allow: GET, POST" := by decide
  rw [line] at listed
  exact absurd listed.2 (by decide)

end Cerco.AllowHeader
