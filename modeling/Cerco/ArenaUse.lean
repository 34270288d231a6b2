import Cerco.Server

set_option autoImplicit false

/-!
# The request path only allocates

Every function that gets the arena of a request hands it back after some
allocations; none of them rewinds it.
-/
namespace Cerco.ArenaUse
open Cerco.Alloc Cerco.CString Cerco.Request Cerco.Router Cerco.Dispatch Cerco.HttpCallbacks
open Cerco.Server

theorem arenaStrdup_allocs (a : Arena) (s : Bytes) : Allocs a (arenaStrdup a s).2 := by
  unfold arenaStrdup
  split <;> exact .one ‹_›

theorem arenaStrndup_allocs (a : Arena) (s : Bytes) : Allocs a (arenaStrndup a s).2 := by
  unfold arenaStrndup
  split <;> exact .one ‹_›

theorem arenaStrdup_of_eq {a b : Arena} {s : Bytes} {p : Option Bytes}
    (h : arenaStrdup a s = (p, b)) : Allocs a b := by
  have := arenaStrdup_allocs a s
  rwa [h] at this

theorem wbufGrow_allocs (a : Arena) (b : Wbuf) (need : ℕ) : Allocs a (wbufGrow a b need).1 := by
  unfold wbufGrow
  split
  · exact .refl a
  · dsimp only
    split <;> exact .one ‹_›

theorem wbufPutn_allocs (a : Arena) (b : Wbuf) (s : Bytes) : Allocs a (wbufPutn a b s).1 := by
  unfold wbufPutn
  dsimp only
  split <;> exact wbufGrow_allocs a b s.length

theorem respHdrAdd_allocs (a : Arena) (r : Req) (name value : Bytes) :
    Allocs a (respHdrAdd a r name value).1 := by
  unfold respHdrAdd
  split
  · exact .refl a
  · split
    · exact .one ‹_›
    · rename_i b h
      have all := ((Allocs.one h).trans (arenaStrdup_allocs b name)).trans
        (arenaStrdup_allocs (arenaStrdup b name).2 value)
      dsimp only
      split <;> exact all

theorem setHeader_allocs (a : Arena) (r : Req) (name value : Bytes) :
    Allocs a (Request.setHeader a r name value).1 := by
  unfold Request.setHeader
  split
  · exact arenaStrdup_allocs a value
  · exact respHdrAdd_allocs a r name value

theorem respPutn_allocs (s : Bytes) (a : Arena) (r : Req) : Allocs a (respPutn s a r).1 :=
  wbufPutn_allocs a r.resp s

theorem reqTargetPath_allocs (a : Arena) (r : Req) : Allocs a (reqTargetPath a r).2.1 := by
  unfold reqTargetPath
  split
  · exact .refl a
  · dsimp only
    rcases strchr 63 (cstr (r.target.getD [slash])) with _ | ⟨pre, post⟩
    · dsimp only
      generalize (if (targetPart _ _).length = 0 then [slash] else targetPart _ _) = part
      split
      · exact .refl a
      · split
        · exact .one ‹_›
        · split <;> exact .one ‹_›
    · dsimp only
      generalize (if (targetPart _ _).length = 0 then [slash] else targetPart _ _) = part
      split
      · exact .refl a
      · split
        · exact .one ‹_›
        · rename_i h
          split
          · exact .one h
          · split
            · exact (Allocs.one h).trans (.one ‹_›)
            · rename_i h'
              split <;> exact (Allocs.one h).trans (.one h')

theorem takeTarget_allocs (method urlSb : Bytes) (a : Arena) (r : Req) :
    Allocs a (takeTarget method urlSb a r).2.1 := by
  unfold takeTarget
  have named := arenaStrdup_allocs a method
  dsimp only
  refine named.trans ?_
  split
  · exact (arenaStrndup_allocs _ _).trans (reqTargetPath_allocs _ _)
  · exact reqTargetPath_allocs _ _

theorem captureParams_allocs (ss : List RtSeg) (qs : List Bytes) (a : Arena) (r : Req) :
    Allocs a (captureParams ss qs a r).1 := by
  induction ss generalizing qs a r with
  | nil => exact .refl a
  | cons s ss ih =>
    cases qs with
    | nil => exact .refl a
    | cons q qs =>
      unfold captureParams
      split
      · split <;> exact .one ‹_›
      · split
        · split
          · exact (arenaStrdup_allocs a q).trans (ih _ _ _)
          · exact ih _ _ _
        · exact ih _ _ _

theorem findLoop_allocs (segs : List Bytes) (method : Bytes) (isHead : Bool) (rs : List RtRoute)
    (res : RtResult) (mask : ℕ) (a : Arena) (r : Req) :
    Allocs a (findLoop segs method isHead rs res mask a r).arena := by
  induction rs generalizing res mask a r with
  | nil => exact .refl a
  | cons rr rest ih =>
    unfold findLoop
    split
    · have captured := captureParams_allocs rr.segs segs a { r with routeParams := [] }
      dsimp only
      split
      · exact captured
      · exact captured.trans (ih _ _ _ _)
    · exact ih _ _ _ _

theorem routerProbe_allocs (routes : List RtRoute) (a : Arena) (r : Req) (fn : Option ℕ)
    (mask : ℕ) : Allocs a (routerProbe routes a r fn mask).2.arena := by
  unfold routerProbe routerFind
  dsimp only
  split
  · exact arenaStrdup_of_eq ‹_›
  · have copied := arenaStrdup_of_eq ‹_›
    split
    · exact copied
    · exact copied.trans (findLoop_allocs _ _ _ _ _ _ _ _)

theorem probeReq_allocs (routes : List RtRoute) (a : Arena) (r : Req) :
    Allocs a (probeReq routes a r).1 := routerProbe_allocs routes a r none 0

theorem apiRun_allocs (call : ApiCall) (a : Arena) (r : Req) : Allocs a (apiRun call a r).1 := by
  cases call with
  | status code =>
    simp only [apiRun]
    split <;> exact .refl a
  | setHeader name value => exact setHeader_allocs a r name value
  | addHeader name value => exact respHdrAdd_allocs a r name value
  | write s => exact respPutn_allocs s a r
  | reset => exact .refl a
  | title escaped =>
    simp only [apiRun]
    split <;> exact .one ‹_›
  | redirect location =>
    exact (setHeader_allocs a _ _ location).trans (respPutn_allocs _ _ _)
  | alloc size => exact .one rfl

theorem handlerRun_allocs (calls : List ApiCall) (a : Arena) (r : Req) :
    Allocs a (handlerRun calls a r).1 := by
  unfold handlerRun
  induction calls generalizing a r with
  | nil => exact .refl a
  | cons call calls ih => exact (apiRun_allocs call a r).trans (ih _ _)

theorem checkResponse_allocs (a : Arena) (r : Req) : Allocs a (checkResponse a r).1 := by
  unfold checkResponse
  split
  · exact wbufPutn_allocs _ _ _
  · split
    · exact wbufPutn_allocs _ _ _
    · exact .refl a

theorem splice_allocs (a : Arena) (r : Req) (lo hi : ℕ) (s : Bytes) (injected : Bool) :
    Allocs a (splice a r lo hi s injected).1 := by
  unfold splice
  dsimp only
  split <;> exact .one ‹_›

theorem applyPageTitle_allocs (a : Arena) (r : Req) : Allocs a (applyPageTitle a r).1 := by
  unfold applyPageTitle
  split
  · exact .refl a
  · split
    · exact .refl a
    · split
      · exact .refl a
      · split
        · exact .refl a
        · exact splice_allocs _ _ _ _ _ _

theorem devInjectLiveScript_allocs {σ : Type} (env : Connection.Env σ) (a : Arena) (r : Req) :
    Allocs a (devInjectLiveScript env a r).1 := by
  unfold devInjectLiveScript
  split
  · exact .refl a
  · dsimp only
    split
    · exact .refl a
    · exact splice_allocs _ _ _ _ _ _

end Cerco.ArenaUse
