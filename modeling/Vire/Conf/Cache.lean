import Vire.Conf.Command
import Vire.Logic.Run

/-!
# The configuration cache of a worker

Each worker keeps a copy of six options and the version of the configuration it was taken from.
`conf_cache_update` reads them one by one, each under the lock for itself, so other workers may run
CONFIG SET in between.
-/

namespace Vire.Conf

structure Cache where
  cacheVersion : ℕ
  maxclients : ℤ
  requirepass : Option Sds
  adminpass : Option Sds
  maxmemory : ℤ
  maxTimeComplexityLimit : ℤ
  slowlogLogSlowerThan : ℤ
  deriving DecidableEq

inductive Cached
  | maxclients
  | requirepass
  | adminpass
  | maxmemory
  | maxTimeComplexityLimit
  | slowlogLogSlowerThan
  deriving DecidableEq

def Cached.all : List Cached :=
  [maxclients, requirepass, adminpass, maxmemory, maxTimeComplexityLimit, slowlogLogSlowerThan]

def Cached.opt : Cached → Opt
  | maxclients => .maxclients
  | requirepass => .requirepass
  | adminpass => .adminpass
  | maxmemory => .maxmemory
  | maxTimeComplexityLimit => .maxTimeComplexityLimit
  | slowlogLogSlowerThan => .slowlogLogSlowerThan

def Cache.get (cc : Cache) : Cached → FieldVal
  | .maxclients => .int cc.maxclients
  | .requirepass => .sds cc.requirepass
  | .adminpass => .sds cc.adminpass
  | .maxmemory => .longlong cc.maxmemory
  | .maxTimeComplexityLimit => .longlong cc.maxTimeComplexityLimit
  | .slowlogLogSlowerThan => .longlong cc.slowlogLogSlowerThan

/-- `conf_server_get(option, &cc->option)` -/
def Cache.read (s : Server) (cc : Cache) : Cached → Cache
  | .maxclients => { cc with maxclients := s.maxclients }
  | .requirepass => { cc with requirepass := s.requirepass }
  | .adminpass => { cc with adminpass := s.adminpass }
  | .maxmemory => { cc with maxmemory := s.maxmemory }
  | .maxTimeComplexityLimit => { cc with maxTimeComplexityLimit := s.maxTimeComplexityLimit }
  | .slowlogLogSlowerThan => { cc with slowlogLogSlowerThan := s.slowlogLogSlowerThan }

def Cache.init (s : Server) : Cache where
  cacheVersion := 0
  maxclients := s.maxclients
  requirepass := s.requirepass
  adminpass := s.adminpass
  maxmemory := s.maxmemory
  maxTimeComplexityLimit := s.maxTimeComplexityLimit
  slowlogLogSlowerThan := s.slowlogLogSlowerThan

/-! ## The workers

A worker is in its event loop, inside `conf_cache_update`, or inside CONFIG SET between the check
and the call of the setter. -/

inductive Pc
  | idle
  /-- The version that was read, and the options still to be read. -/
  | updating (cversion : ℕ) (left : List Cached)
  | setting (o : Opt) (value : Sds)
  deriving DecidableEq

structure Worker where
  cc : Cache
  pc : Pc
  deriving DecidableEq

structure State where
  conf : VrConf
  worker : ℕ → Option Worker

inductive WorkerAct
  /-- `conf_cache_update` reads the version -/
  | version
  /-- it reads the next option -/
  | read
  /-- and ends -/
  | done
  /-- CONFIG SET of a client with some level of authentication, up to the setter -/
  | check (os : Os) (authenticated : ℕ) (name value : Sds)
  /-- the setter -/
  | set

inductive Act
  | work (w : ℕ) (a : WorkerAct)
  /-- `conf_cache_init`, while the server starts -/
  | init (w : ℕ)
  /-- `adjustOpenFilesLimit`, while the server starts -/
  | adjust (os : Os) (maxclients : ℤ)

/-- `conf_cache_update` up to the first option: the passwords are freed. -/
def beginUpdate (conf : VrConf) (x : Worker) : Worker :=
  if conf.version ≤ x.cc.cacheVersion then x
  else
    { cc := { x.cc with requirepass := none, adminpass := none }
      pc := .updating conf.version Cached.all }

def beginSet (j : ℕ) (os : Os) (authenticated : ℕ) (name value : Sds) (conf : VrConf) (x : Worker) :
    VrConf × Worker :=
  let r := configSetCheck os j x.cc.adminpass authenticated name value conf
  match r.2 with
  | .error _ => (r.1, x)
  | .ok o => (r.1, { x with pc := .setting o value })

def Worker.step (j : ℕ) (conf : VrConf) (x : Worker) : WorkerAct → Option (VrConf × Worker)
  | .version => if x.pc = .idle then some (conf, beginUpdate conf x) else none
  | .read =>
    match x.pc with
    | .updating v (f :: left) => some (conf, ⟨x.cc.read conf.server f, .updating v left⟩)
    | _ => none
  | .done =>
    match x.pc with
    | .updating v [] => some (conf, ⟨{ x.cc with cacheVersion := v }, .idle⟩)
    | _ => none
  | .check os authenticated name value =>
    if x.pc = .idle then some (beginSet j os authenticated name value conf x) else none
  | .set =>
    match x.pc with
    | .setting o value => some ((o.set j (splitValue value) conf).1, { x with pc := .idle })
    | _ => none

def step (j : ℕ) (s : State) : Act → Option State
  | .work w a =>
    (s.worker w).bind fun x => (x.step j s.conf a).map fun r =>
      ⟨r.1, Function.update s.worker w (some r.2)⟩
  | .init w =>
    if s.worker w = none then
      some { s with worker := Function.update s.worker w (some ⟨.init s.conf.server, .idle⟩) }
    else none
  | .adjust os m => some { s with conf := (adjustOpenFilesLimit os j m s.conf).1 }

def start (conf : VrConf) : State := ⟨conf, fun _ => none⟩

end Vire.Conf
