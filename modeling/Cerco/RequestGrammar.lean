import Cerco.Server

set_option autoImplicit false

/-!
# Requests with a Content-Length, as a span machine

The request line, the header section and a body of the announced length, with
the callbacks that llhttp makes for them. Runs of the server use it where the
vendored parser stands as a parameter.
-/
namespace Cerco.RequestGrammar
open Cerco.CString Cerco.Connection Cerco.SpanParser Cerco.Router Cerco.Server
open Cerco.TransitionRuns

inductive Pos
  | start
  | method
  | beforeUrl
  | url
  | version
  | line
  | name
  | beforeValue
  | value
  | valueEnd
  | blank
  | bodyStart
  | body
deriving DecidableEq

/-- `word` is the method or the header name read so far; `length` is first the
announced length of the body and then what is left of it. -/
structure Scan where
  pos : Pos
  word : Bytes
  length : ℕ
deriving DecidableEq

abbrev Rep := Report Elem Mark HttpError

def between : Scan := ⟨.start, [], 0⟩

def openedAt : Pos → Option Elem
  | .url => some .url
  | .name => some .field
  | .value => some .value
  | .body => some .body
  | _ => none

def lengthDigit (word : Bytes) (n : ℕ) (c : UInt8) : ℕ :=
  if strcaseeq word (ascii "content-length") then n * 10 + (c.toNat - 48) else n

def bodyByte (s : Scan) : List Rep × Scan :=
  if s.length = 1 then ([.leave, .mark (.messageComplete true)], between)
  else ([], { s with pos := .body, length := s.length - 1 })

def scan (s : Scan) (c : UInt8) : List Rep × List Rep × Scan :=
  match s.pos with
  | .start =>
    if c = 13 ∨ c = 10 then ([], [], s)
    else if 65 ≤ c ∧ c ≤ 90 then ([.mark .messageBegin], [], ⟨.method, [c], 0⟩)
    else ([.mark .messageBegin, .fail .invalidMethod], [], s)
  | .method =>
    if c = 32 then ([.mark (.method s.word)], [], { s with pos := .beforeUrl })
    else if 65 ≤ c ∧ c ≤ 90 then ([], [], { s with word := s.word ++ [c] })
    else ([.fail .invalidMethod], [], s)
  | .beforeUrl =>
    if c = 32 then ([], [], s)
    else if c < 33 then ([.fail .invalidUrl], [], s)
    else ([.enter .url], [], { s with pos := .url })
  | .url =>
    if c = 32 then ([.leave], [], { s with pos := .version })
    else if c < 33 then ([.fail .invalidUrl], [], s)
    else ([], [], s)
  | .version => if c = 10 then ([], [], { s with pos := .line }) else ([], [], s)
  | .line =>
    if c = 13 then ([], [], { s with pos := .blank })
    else if c ≤ 32 then ([.fail (.other 10)], [], s)
    else ([.enter .field], [], { s with pos := .name, word := [c] })
  | .name =>
    if c = 58 then ([.leave], [], { s with pos := .beforeValue })
    else if c ≤ 32 then ([.fail (.other 10)], [], s)
    else ([], [], { s with word := s.word ++ [c] })
  | .beforeValue =>
    if c = 32 then ([], [], s)
    else if c = 13 then ([.enter .value, .leave], [], { s with pos := .valueEnd })
    else ([.enter .value], [], { s with pos := .value, length := lengthDigit s.word s.length c })
  | .value =>
    if c = 13 then ([.leave], [], { s with pos := .valueEnd })
    else ([], [], { s with length := lengthDigit s.word s.length c })
  | .valueEnd =>
    if c = 10 then ([], [], { s with pos := .line }) else ([.fail (.other 3)], [], s)
  | .blank =>
    if c = 10 then
      if s.length = 0 then
        ([], [.mark (.headersComplete 0 false), .mark (.messageComplete true)], between)
      else ([], [.mark (.headersComplete s.length false)], { s with pos := .bodyStart })
    else ([.fail (.other 3)], [], s)
  | .bodyStart => ([.enter .body], bodyByte s)
  | .body => ([], bodyByte s)

theorem bodyByte_consecutive (s : Scan) :
    Consecutive (some Elem.body) (bodyByte s).1 (openedAt (bodyByte s).2.pos) := by
  unfold bodyByte
  split
  · exact .leave (.mark (.nil none))
  · exact .nil _

theorem scan_consecutive (s : Scan) (c : UInt8) :
    ∃ o, Consecutive (openedAt s.pos) (scan s c).1 o ∧
      Consecutive o (scan s c).2.1 (openedAt (scan s c).2.2.pos) := by
  obtain ⟨pos, word, length⟩ := s
  cases pos with
  | start =>
    simp only [scan]
    split
    · exact ⟨_, .nil _, .nil _⟩
    · split
      · exact ⟨_, .mark (.nil _), .nil _⟩
      · exact ⟨_, .mark .fail, .nil _⟩
  | method =>
    simp only [scan]
    split
    · exact ⟨_, .mark (.nil _), .nil _⟩
    · split
      · exact ⟨_, .nil _, .nil _⟩
      · exact ⟨_, .fail, .nil _⟩
  | beforeUrl =>
    simp only [scan]
    split
    · exact ⟨_, .nil _, .nil _⟩
    · split
      · exact ⟨_, .fail, .nil _⟩
      · exact ⟨_, .enter (.nil _), .nil _⟩
  | url =>
    simp only [scan]
    split
    · exact ⟨_, .leave (.nil _), .nil _⟩
    · split
      · exact ⟨_, .fail, .nil _⟩
      · exact ⟨_, .nil _, .nil _⟩
  | version =>
    simp only [scan]
    split <;> exact ⟨_, .nil _, .nil _⟩
  | line =>
    simp only [scan]
    split
    · exact ⟨_, .nil _, .nil _⟩
    · split
      · exact ⟨_, .fail, .nil _⟩
      · exact ⟨_, .enter (.nil _), .nil _⟩
  | name =>
    simp only [scan]
    split
    · exact ⟨_, .leave (.nil _), .nil _⟩
    · split
      · exact ⟨_, .fail, .nil _⟩
      · exact ⟨_, .nil _, .nil _⟩
  | beforeValue =>
    simp only [scan]
    split
    · exact ⟨_, .nil _, .nil _⟩
    · split
      · exact ⟨_, .enter (.leave (.nil _)), .nil _⟩
      · exact ⟨_, .enter (.nil _), .nil _⟩
  | value =>
    simp only [scan]
    split
    · exact ⟨_, .leave (.nil _), .nil _⟩
    · exact ⟨_, .nil _, .nil _⟩
  | valueEnd =>
    simp only [scan]
    split
    · exact ⟨_, .nil _, .nil _⟩
    · exact ⟨_, .fail, .nil _⟩
  | blank =>
    simp only [scan]
    split
    · split
      · exact ⟨_, .nil _, .mark (.mark (.nil _))⟩
      · exact ⟨_, .nil _, .mark (.nil _)⟩
    · exact ⟨_, .fail, .nil _⟩
  | bodyStart => exact ⟨_, .enter (.nil _), bodyByte_consecutive _⟩
  | body => exact ⟨_, .nil _, bodyByte_consecutive _⟩

def requestParser : Llhttp Scan where
  start := between
  opened s := openedAt s.pos
  step := scan
  opened_start := rfl
  consecutive := scan_consecutive

def stockConfig : Config where
  workers := 4
  workQueue := 1024
  maxConnections := 10000
  maxBody := 2 * 1024 * 1024
  devMode := false
  statsEnabled := false
  headerTimeoutMs := 15000
  bodyTimeoutMs := 30000
  keepAliveTimeoutMs := 75000
  requestTimeoutMs := 60000
  requestArenaFirst := 16 * 1024
  requestArenaCap := 2 * 1024 * 1024

/-- The default configuration on a machine where malloc and `uv_write` succeed. -/
def stockEnv (routes : List RouteEntry) : Env Scan where
  llhttp := requestParser
  cfg := stockConfig
  routes := (routerInit true (fun _ _ => true) routes).getD []
  sfs := []
  assets := []
  devFile _ := none
  write _ := .ok
  malloc i k _ := some (2 ^ 40 * (i + 1) + 2 ^ 24 * k)
  bufAddr i := 2 ^ 46 + 65536 * i

def rootTable : List RouteEntry := [⟨ascii "GET", ascii "/", 7⟩]

def getRoot : Bytes := ascii "GET / HTTP/1.1\r\n\r\n"

def postRoot : Bytes := ascii "POST / HTTP/1.1\r\n\r\n"

theorem stock_reach (ok : Srv Scan → Step → Prop) (routes : List RouteEntry) {β : Type}
    (view : Srv Scan → β) (as : List Step) (v : β) (hok : ∀ a ∈ as, ∀ s, ok s a)
    (h : (exec (server (stockEnv routes)) (srvStart (stockEnv routes)) as).map view = some v) :
    ∃ s, Reach (server (stockEnv routes)) ok s ∧ view s = v := by
  obtain ⟨s, hs, hv⟩ := Option.map_eq_some_iff.mp h
  exact ⟨s, exec_reach as (.start rfl) hok hs, hv⟩

theorem stock_reach_while (ok : Srv Scan → Step → Prop) [∀ s a, Decidable (ok s a)]
    (routes : List RouteEntry) {β : Type} (view : Srv Scan → β) (as : List Step) (v : β)
    (h : (execWhile (server (stockEnv routes)) ok (srvStart (stockEnv routes)) as).map view = some v) :
    ∃ s, Reach (server (stockEnv routes)) ok s ∧ view s = v := by
  obtain ⟨s, hs, hv⟩ := Option.map_eq_some_iff.mp h
  exact ⟨s, execWhile_reach as (.start rfl) hs, hv⟩

end Cerco.RequestGrammar
