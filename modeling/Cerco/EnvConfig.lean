import Cerco.CString
import Mathlib.Algebra.Order.Group.Nat
import Mathlib.Algebra.Order.Ring.Int

set_option autoImplicit false

/-!
# The configuration from the environment

Every number goes through `cerco_parse_i64`, which overwrites the variable it is
given; what happens to a number outside its range is written anew for each setting.
-/
namespace Cerco.EnvConfig
open Cerco.CString

def int64Max : ℤ := 9223372036854775807

/-- The loop of `cerco_parse_i64`. -/
def parseDigits : Bytes → ℤ → Option ℤ
  | [], v => some v
  | c :: s, v =>
    if c < 48 ∨ 57 < c then none
    else
      let d : ℤ := (c.toNat : ℤ) - 48
      if (int64Max - d) / 10 < v then none else parseDigits s (v * 10 + d)

/-- `cerco_parse_i64` on a C string; the number it stores, if it returns 1. -/
def parseI64 (s : Bytes) : Option ℤ :=
  match s with
  | [] => none
  | c :: rest =>
    let neg := decide (c = 45)
    let digits := if neg then rest else c :: rest
    if digits = [] then none else (parseDigits digits 0).map fun v => if neg then -v else v

/-- What `getenv` answers. -/
abbrev Env := Bytes → Option Bytes

def envOr (env : Env) (k dflt : Bytes) : Bytes :=
  match env k with
  | some v => if cstr v = [] then dflt else cstr v
  | none => dflt

/-- The call with a variable that holds `v`: what it returns and what the variable holds then. -/
def readNumber (env : Env) (k : Bytes) (v : ℤ) : Bool × ℤ :=
  match parseI64 (envOr env k []) with
  | some x => (true, x)
  | none => (false, v)

def asUnsigned (v : ℤ) : ℕ := (v % 2 ^ 64).toNat

structure CercoConfig where
  host : Bytes
  port : ℤ
  workers : ℤ
  workQueue : ℕ
  maxConnections : ℤ
  maxBody : ℕ
  logLevel : ℕ
  trustProxy : Bool
  devMode : Bool
  distDir : Bytes
  statsEnabled : Bool
  shutdownTimeoutMs : ℕ
  headerTimeoutMs : ℕ
  bodyTimeoutMs : ℕ
  keepAliveTimeoutMs : ℕ
  requestTimeoutMs : ℕ
  requestArenaFirst : ℕ
  requestArenaCap : ℕ
deriving DecidableEq

def portSetting (env : Env) : ℤ :=
  match parseI64 (envOr env (ascii "PORT") (ascii "3000")) with
  | none => 3000
  | some port => if port < 1 ∨ 65535 < port then 3000 else port

/-- `cpus` is what `cerco_cpu_count` returns. -/
def workersSetting (env : Env) (cpus : ℤ) : ℤ :=
  let workers := if 4 < cpus then 4 else cpus
  let workers := if workers < 1 then 1 else workers
  match readNumber env (ascii "CERCO_WORKERS") workers with
  | (false, _) => workers
  | (true, v) =>
    let v := if v < 1 then 1 else v
    if 64 < v then 64 else v

def workQueueSetting (env : Env) : ℕ :=
  match readNumber env (ascii "CERCO_WORK_QUEUE") 1024 with
  | (parsed, q) =>
    let q := if parsed = true ∧ 4 ≤ q then (if 65536 < q then 65536 else q) else q
    asUnsigned q

def maxConnectionsSetting (env : Env) : ℤ :=
  match readNumber env (ascii "CERCO_MAX_CONNECTIONS") 10000 with
  | (false, conns) => conns
  | (true, conns) =>
    let conns := if conns < 8 then 8 else conns
    if 1000000 < conns then 1000000 else conns

def maxBodySetting (env : Env) : ℕ :=
  match readNumber env (ascii "CERCO_MAX_BODY") (2 * 1024 * 1024) with
  | (false, body) => asUnsigned body
  | (true, body) =>
    let body := if body < 0 then 0 else body
    -- the comparison is one of unsigned numbers
    asUnsigned (if 256 * 1024 * 1024 < asUnsigned body then 256 * 1024 * 1024 else body)

def timeoutSetting (env : Env) (k : Bytes) (dflt lo hi : ℤ) : ℕ :=
  match readNumber env k dflt with
  | (parsed, t) => asUnsigned (if parsed = true ∧ lo ≤ t ∧ t ≤ hi then t else t)

def arenaCapSetting (env : Env) : ℕ :=
  match parseI64 (envOr env (ascii "CERCO_REQUEST_MEMORY_LIMIT") []) with
  | none => 2 * 1024 * 1024
  | some mem => if 65536 ≤ mem then asUnsigned mem else 2 * 1024 * 1024

def logLevelSetting (env : Env) : ℕ :=
  let lvl := envOr env (ascii "CERCO_LOG_LEVEL") (ascii "info")
  if strcaseeq lvl (ascii "trace") then 0
  else if strcaseeq lvl (ascii "debug") then 1
  else if strcaseeq lvl (ascii "info") then 2
  else if strcaseeq lvl (ascii "warn") || strcaseeq lvl (ascii "warning") then 3
  else if strcaseeq lvl (ascii "error") then 4
  else if strcaseeq lvl (ascii "off") || strcaseeq lvl (ascii "none") then 5
  else 2

def flagSetting (env : Env) (k : Bytes) : Bool := strcaseeq (envOr env k (ascii "0")) (ascii "1")

def shutdownTimeout (env : Env) : ℕ := timeoutSetting env (ascii "CERCO_SHUTDOWN_TIMEOUT_MS") 10000 100 120000
def headerTimeout (env : Env) : ℕ := timeoutSetting env (ascii "CERCO_HEADER_TIMEOUT_MS") 15000 1000 120000
def bodyTimeout (env : Env) : ℕ := timeoutSetting env (ascii "CERCO_BODY_TIMEOUT_MS") 30000 1000 300000
def keepAliveTimeout (env : Env) : ℕ := timeoutSetting env (ascii "CERCO_KEEPALIVE_TIMEOUT_MS") 75000 1000 600000
def requestTimeout (env : Env) : ℕ := timeoutSetting env (ascii "CERCO_REQUEST_TIMEOUT_MS") 60000 1000 600000

/-- `cerco_config_from_env` -/
def configFromEnv (env : Env) (cpus : ℤ) : CercoConfig where
  host := envOr env (ascii "HOST") (ascii "0.0.0.0")
  port := portSetting env
  workers := workersSetting env cpus
  workQueue := workQueueSetting env
  maxConnections := maxConnectionsSetting env
  maxBody := maxBodySetting env
  logLevel := logLevelSetting env
  trustProxy := flagSetting env (ascii "CERCO_TRUST_PROXY")
  devMode := flagSetting env (ascii "CERCO_DEV")
  distDir := envOr env (ascii "CERCO_DIST_DIR") (ascii "dist")
  statsEnabled := flagSetting env (ascii "CERCO_STATS")
  shutdownTimeoutMs := shutdownTimeout env
  headerTimeoutMs := headerTimeout env
  bodyTimeoutMs := bodyTimeout env
  keepAliveTimeoutMs := keepAliveTimeout env
  requestTimeoutMs := requestTimeout env
  requestArenaFirst := 16 * 1024
  requestArenaCap := arenaCapSetting env

theorem parseDigits_bounds {s : Bytes} {v x : ℤ} (start : 0 ≤ v ∧ v ≤ int64Max) (h : parseDigits s v = some x) :
    0 ≤ x ∧ x ≤ int64Max := by
  induction s generalizing v with
  | nil => exact Option.some.inj h ▸ start
  | cons c s ih =>
    rw [parseDigits] at h
    split at h
    · cases h
    · rename_i digit
      dsimp only at h
      split at h
      · cases h
      · rename_i room
        have low : 48 ≤ c.toNat := by
          by_contra below
          exact digit (.inl (UInt8.lt_iff_toNat_lt.mpr (Nat.lt_of_not_le below)))
        refine ih ?_ h
        unfold int64Max at room ⊢
        omega

theorem parseI64_bounds {s : Bytes} {x : ℤ} (h : parseI64 s = some x) : -int64Max ≤ x ∧ x ≤ int64Max := by
  have start : (0 : ℤ) ≤ 0 ∧ (0 : ℤ) ≤ int64Max := by decide
  cases s with
  | nil => cases h
  | cons c rest =>
    rw [parseI64] at h
    generalize (if decide (c = 45) = true then rest else c :: rest) = digits at h
    by_cases empty : digits = []
    · rw [if_pos empty] at h
      cases h
    · rw [if_neg empty] at h
      obtain ⟨v, hv, rfl⟩ := Option.map_eq_some_iff.mp h
      have := parseDigits_bounds start hv
      split <;> omega

theorem asUnsigned_eq {v : ℤ} (h : -int64Max ≤ v ∧ v ≤ int64Max) :
    (asUnsigned v : ℤ) = if 0 ≤ v then v else v + 2 ^ 64 := by
  unfold asUnsigned
  unfold int64Max at h
  split <;> omega

def Within (v lo hi : ℤ) : Prop := lo ≤ v ∧ v ≤ hi

instance (v lo hi : ℤ) : Decidable (Within v lo hi) := inferInstanceAs (Decidable (_ ∧ _))

/-- Each numeric setting is its default or a value inside the range that the code names for it. -/
structure InRange (cpus : ℤ) (cfg : CercoConfig) : Prop where
  port : cfg.port = 3000 ∨ Within cfg.port 1 65535
  workers : cfg.workers = max 1 (min 4 cpus) ∨ Within cfg.workers 1 64
  workQueue : cfg.workQueue = 1024 ∨ Within cfg.workQueue 4 65536
  maxConnections : cfg.maxConnections = 10000 ∨ Within cfg.maxConnections 8 1000000
  maxBody : cfg.maxBody = 2 * 1024 * 1024 ∨ Within cfg.maxBody 0 (256 * 1024 * 1024)
  shutdownTimeout : cfg.shutdownTimeoutMs = 10000 ∨ Within cfg.shutdownTimeoutMs 100 120000
  headerTimeout : cfg.headerTimeoutMs = 15000 ∨ Within cfg.headerTimeoutMs 1000 120000
  bodyTimeout : cfg.bodyTimeoutMs = 30000 ∨ Within cfg.bodyTimeoutMs 1000 300000
  keepAliveTimeout : cfg.keepAliveTimeoutMs = 75000 ∨ Within cfg.keepAliveTimeoutMs 1000 600000
  requestTimeout : cfg.requestTimeoutMs = 60000 ∨ Within cfg.requestTimeoutMs 1000 600000
  requestArenaCap : cfg.requestArenaCap = 2 * 1024 * 1024 ∨ 65536 ≤ cfg.requestArenaCap

def Asks (env : Env) (k : Bytes) (lo hi : ℤ) : Prop := ∀ v, parseI64 (envOr env k []) = some v → Within v lo hi

theorem readNumber_cases (env : Env) (k : Bytes) (v : ℤ) :
    (parseI64 (envOr env k []) = none ∧ readNumber env k v = (false, v)) ∨
    ∃ x, parseI64 (envOr env k []) = some x ∧ (-int64Max ≤ x ∧ x ≤ int64Max) ∧ readNumber env k v = (true, x) := by
  unfold readNumber
  cases h : parseI64 (envOr env k []) with
  | none => exact .inl ⟨rfl, rfl⟩
  | some x => exact .inr ⟨x, rfl, parseI64_bounds h, rfl⟩

theorem timeoutSetting_iff (env : Env) (k : Bytes) {dflt lo hi : ℤ} (h : 0 ≤ lo ∧ lo ≤ dflt ∧ dflt ≤ hi)
    (top : hi < 2 ^ 62) :
    ((timeoutSetting env k dflt lo hi : ℤ) = dflt ∨ Within (timeoutSetting env k dflt lo hi) lo hi) ↔
      Asks env k lo hi := by
  unfold timeoutSetting Asks
  obtain ⟨none, e⟩ | ⟨x, found, bounds, e⟩ := readNumber_cases env k dflt
  · rw [e, none]
    dsimp only
    rw [ite_self, asUnsigned_eq (by unfold int64Max; omega), if_pos (by omega)]
    exact iff_of_true (.inl rfl) fun v hv => (by cases hv)
  · rw [e, found]
    dsimp only
    rw [ite_self, asUnsigned_eq bounds]
    unfold int64Max at bounds
    unfold Within
    constructor
    · rintro inside v hv
      obtain rfl := Option.some.inj hv
      split at inside <;> omega
    · intro inside
      have := inside x rfl
      rw [if_pos (by omega)]
      exact .inr this

theorem workQueueSetting_iff (env : Env) : (workQueueSetting env = 1024 ∨ Within (workQueueSetting env) 4 65536) ↔
    Asks env (ascii "CERCO_WORK_QUEUE") 4 int64Max := by
  unfold workQueueSetting Asks
  obtain ⟨none, e⟩ | ⟨x, found, bounds, e⟩ := readNumber_cases env (ascii "CERCO_WORK_QUEUE") 1024
  · rw [e, none]
    exact iff_of_true (.inl (by decide)) fun v hv => (by cases hv)
  · rw [e, found]
    dsimp only
    by_cases small : 4 ≤ x
    · refine iff_of_true (.inr ?_) fun v hv => ?_
      · rw [if_pos ⟨rfl, small⟩]
        have value := asUnsigned_eq (v := if 65536 < x then 65536 else x) (by unfold int64Max at bounds ⊢; split <;> omega)
        rw [Within, value]
        split <;> split <;> omega
      · obtain rfl := Option.some.inj hv
        exact ⟨small, bounds.2⟩
    · have value := asUnsigned_eq bounds
      refine iff_of_false ?_ fun h => small (h x rfl).1
      rw [if_neg fun h => small h.2, Within, value]
      unfold int64Max at bounds
      split at value <;> omega

theorem portSetting_within (env : Env) : portSetting env = 3000 ∨ Within (portSetting env) 1 65535 := by
  unfold portSetting
  cases parseI64 (envOr env (ascii "PORT") (ascii "3000")) with
  | none => exact .inl rfl
  | some port =>
    dsimp only
    by_cases out : port < 1 ∨ 65535 < port
    · exact .inl (if_pos out)
    · rw [if_neg out]
      unfold Within
      omega

theorem workersSetting_within (env : Env) (cpus : ℤ) :
    workersSetting env cpus = max 1 (min 4 cpus) ∨ Within (workersSetting env cpus) 1 64 := by
  unfold workersSetting
  dsimp only
  obtain ⟨_, e⟩ | ⟨x, _, _, e⟩ := readNumber_cases env (ascii "CERCO_WORKERS")
    (if (if 4 < cpus then 4 else cpus) < 1 then 1 else if 4 < cpus then 4 else cpus)
  · rw [e]
    left
    dsimp only
    omega
  · rw [e]
    right
    unfold Within
    dsimp only
    omega

theorem maxConnectionsSetting_within (env : Env) :
    maxConnectionsSetting env = 10000 ∨ Within (maxConnectionsSetting env) 8 1000000 := by
  unfold maxConnectionsSetting
  obtain ⟨_, e⟩ | ⟨x, _, _, e⟩ := readNumber_cases env (ascii "CERCO_MAX_CONNECTIONS") 10000
  · rw [e]
    exact .inl rfl
  · rw [e]
    right
    unfold Within
    dsimp only
    omega

theorem maxBodySetting_within (env : Env) :
    maxBodySetting env = 2 * 1024 * 1024 ∨ Within (maxBodySetting env) 0 (256 * 1024 * 1024) := by
  unfold maxBodySetting
  obtain ⟨_, e⟩ | ⟨x, _, bounds, e⟩ := readNumber_cases env (ascii "CERCO_MAX_BODY") (2 * 1024 * 1024)
  · rw [e]
    exact .inl (by decide)
  · rw [e]
    right
    dsimp only
    have body := asUnsigned_eq (v := if x < 0 then 0 else x) (by unfold int64Max at bounds ⊢; split <;> omega)
    rw [if_pos (show (0 : ℤ) ≤ if x < 0 then 0 else x by split <;> omega)] at body
    generalize (if x < 0 then 0 else x) = b at body
    by_cases large : 256 * 1024 * 1024 < asUnsigned b
    · rw [if_pos large]
      decide
    · rw [if_neg large]
      unfold Within
      omega

theorem arenaCapSetting_within (env : Env) :
    arenaCapSetting env = 2 * 1024 * 1024 ∨ 65536 ≤ arenaCapSetting env := by
  unfold arenaCapSetting
  cases h : parseI64 (envOr env (ascii "CERCO_REQUEST_MEMORY_LIMIT") []) with
  | none => exact .inl rfl
  | some mem =>
    dsimp only
    by_cases large : 65536 ≤ mem
    · have value := asUnsigned_eq (parseI64_bounds h)
      rw [if_pos large]
      rw [if_pos (by omega)] at value
      omega
    · exact .inl (if_neg large)

/-- Whoever sets the queue or a timeout sets it inside its range. -/
structure Sensible (env : Env) : Prop where
  workQueue : Asks env (ascii "CERCO_WORK_QUEUE") 4 int64Max
  shutdownTimeout : Asks env (ascii "CERCO_SHUTDOWN_TIMEOUT_MS") 100 120000
  headerTimeout : Asks env (ascii "CERCO_HEADER_TIMEOUT_MS") 1000 120000
  bodyTimeout : Asks env (ascii "CERCO_BODY_TIMEOUT_MS") 1000 300000
  keepAliveTimeout : Asks env (ascii "CERCO_KEEPALIVE_TIMEOUT_MS") 1000 600000
  requestTimeout : Asks env (ascii "CERCO_REQUEST_TIMEOUT_MS") 1000 600000

/-- When the configuration is in range. -/
theorem config_in_range (env : Env) (cpus : ℤ) : InRange cpus (configFromEnv env cpus) ↔ Sensible env := by
  have shutdown := @timeoutSetting_iff env (ascii "CERCO_SHUTDOWN_TIMEOUT_MS") 10000 100 120000 (by decide) (by decide)
  have header := @timeoutSetting_iff env (ascii "CERCO_HEADER_TIMEOUT_MS") 15000 1000 120000 (by decide) (by decide)
  have body := @timeoutSetting_iff env (ascii "CERCO_BODY_TIMEOUT_MS") 30000 1000 300000 (by decide) (by decide)
  have keepAlive := @timeoutSetting_iff env (ascii "CERCO_KEEPALIVE_TIMEOUT_MS") 75000 1000 600000 (by decide) (by decide)
  have request := @timeoutSetting_iff env (ascii "CERCO_REQUEST_TIMEOUT_MS") 60000 1000 600000 (by decide) (by decide)
  have queue := workQueueSetting_iff env
  norm_cast at shutdown header body keepAlive request
  constructor
  · intro h
    exact ⟨queue.mp h.workQueue, shutdown.mp h.shutdownTimeout, header.mp h.headerTimeout,
      body.mp h.bodyTimeout, keepAlive.mp h.keepAliveTimeout, request.mp h.requestTimeout⟩
  · intro h
    exact ⟨portSetting_within env, workersSetting_within env cpus, queue.mpr h.workQueue,
      maxConnectionsSetting_within env, maxBodySetting_within env, shutdown.mpr h.shutdownTimeout,
      header.mpr h.headerTimeout, body.mpr h.bodyTimeout, keepAlive.mpr h.keepAliveTimeout,
      request.mpr h.requestTimeout, arenaCapSetting_within env⟩

/-- An environment with one variable. -/
def oneVar (k v : Bytes) : Env := fun x => if x = k then some v else none

/-- A queue of three jobs, and a header timeout of minus one. -/
theorem out_of_range_kept :
    (configFromEnv (oneVar (ascii "CERCO_WORK_QUEUE") (ascii "3")) 8).workQueue = 3 ∧
    ¬ InRange 8 (configFromEnv (oneVar (ascii "CERCO_WORK_QUEUE") (ascii "3")) 8) ∧
    (configFromEnv (oneVar (ascii "CERCO_HEADER_TIMEOUT_MS") (ascii "-1")) 8).headerTimeoutMs = 2 ^ 64 - 1 ∧
    ¬ InRange 8 (configFromEnv (oneVar (ascii "CERCO_HEADER_TIMEOUT_MS") (ascii "-1")) 8) := by
  refine ⟨by decide, fun h => absurd h.workQueue (by decide), by decide, fun h => absurd h.headerTimeout (by decide)⟩

end Cerco.EnvConfig
