import Vire.Util

/-!
# The configuration

The options of `conf_server_options` with their setters.  A setter runs as one section under the
write lock of the configuration and moves its version on when it succeeds.
-/

namespace Vire.Conf

inductive EvictPolicy
  | volatileLru
  | volatileRandom
  | volatileTtl
  | allkeysLru
  | allkeysRandom
  | noeviction
  deriving DecidableEq

def EvictPolicy.name : EvictPolicy → Sds
  | volatileLru => ascii "volatile-lru".toList
  | volatileRandom => ascii "volatile-random".toList
  | volatileTtl => ascii "volatile-ttl".toList
  | allkeysLru => ascii "allkeys-lru".toList
  | allkeysRandom => ascii "allkeys-random".toList
  | noeviction => ascii "noeviction".toList

def EvictPolicy.all : List EvictPolicy :=
  [volatileLru, volatileRandom, volatileTtl, allkeysLru, allkeysRandom, noeviction]

def EvictPolicy.lru (p : EvictPolicy) : Bool := p = volatileLru || p = allkeysLru

structure Server where
  databases : ℤ
  internalDbsPerDatabases : ℤ
  maxTimeComplexityLimit : ℤ
  maxmemory : ℤ
  maxmemoryPolicy : EvictPolicy
  maxmemorySamples : ℤ
  maxclients : ℤ
  threads : ℤ
  binds : List Sds
  port : ℤ
  slowlogLogSlowerThan : ℤ
  slowlogMaxLen : ℤ
  requirepass : Option Sds
  adminpass : Option Sds
  commandsNeedAdminpass : List Sds
  deriving DecidableEq

/-- `conf_server_set_default` on a machine with `cpus` processors. -/
def Server.default (cpus : ℤ) : Server where
  databases := 6
  internalDbsPerDatabases := 6
  maxTimeComplexityLimit := 0
  maxmemory := 0
  maxmemoryPolicy := .noeviction
  maxmemorySamples := 5
  maxclients := 10000
  threads := if 6 < cpus then 6 else cpus
  binds := [ascii "0.0.0.0".toList]
  port := 55555
  slowlogLogSlowerThan := 10000
  slowlogMaxLen := 128
  requirepass := none
  adminpass := none
  commandsNeedAdminpass := []

structure VrConf where
  server : Server
  version : ℕ
  deriving DecidableEq

/-- `conf_value`: the elements of an array are strings. -/
inductive Value
  | string (s : Sds)
  | array (l : List Sds)
  deriving DecidableEq

/-- The place of an option in `conf_server`, which the source gives as an offset. -/
structure Field (α : Type) where
  get : Server → α
  put : α → Server → Server
  get_put : ∀ v s, get (put v s) = v
  put_get : ∀ s, put (get s) s = s

namespace Field

def databases : Field ℤ :=
  ⟨(·.databases), fun v s => { s with databases := v }, fun _ _ => rfl, fun _ => rfl⟩

def internalDbsPerDatabases : Field ℤ :=
  ⟨(·.internalDbsPerDatabases), fun v s => { s with internalDbsPerDatabases := v },
    fun _ _ => rfl, fun _ => rfl⟩

def maxmemory : Field ℤ :=
  ⟨(·.maxmemory), fun v s => { s with maxmemory := v }, fun _ _ => rfl, fun _ => rfl⟩

def maxmemoryPolicy : Field EvictPolicy :=
  ⟨(·.maxmemoryPolicy), fun v s => { s with maxmemoryPolicy := v }, fun _ _ => rfl, fun _ => rfl⟩

def maxmemorySamples : Field ℤ :=
  ⟨(·.maxmemorySamples), fun v s => { s with maxmemorySamples := v }, fun _ _ => rfl, fun _ => rfl⟩

def maxTimeComplexityLimit : Field ℤ :=
  ⟨(·.maxTimeComplexityLimit), fun v s => { s with maxTimeComplexityLimit := v },
    fun _ _ => rfl, fun _ => rfl⟩

def binds : Field (List Sds) :=
  ⟨(·.binds), fun v s => { s with binds := v }, fun _ _ => rfl, fun _ => rfl⟩

def port : Field ℤ := ⟨(·.port), fun v s => { s with port := v }, fun _ _ => rfl, fun _ => rfl⟩

def threads : Field ℤ :=
  ⟨(·.threads), fun v s => { s with threads := v }, fun _ _ => rfl, fun _ => rfl⟩

def maxclients : Field ℤ :=
  ⟨(·.maxclients), fun v s => { s with maxclients := v }, fun _ _ => rfl, fun _ => rfl⟩

def slowlogLogSlowerThan : Field ℤ :=
  ⟨(·.slowlogLogSlowerThan), fun v s => { s with slowlogLogSlowerThan := v },
    fun _ _ => rfl, fun _ => rfl⟩

def slowlogMaxLen : Field ℤ :=
  ⟨(·.slowlogMaxLen), fun v s => { s with slowlogMaxLen := v }, fun _ _ => rfl, fun _ => rfl⟩

def requirepass : Field (Option Sds) :=
  ⟨(·.requirepass), fun v s => { s with requirepass := v }, fun _ _ => rfl, fun _ => rfl⟩

def adminpass : Field (Option Sds) :=
  ⟨(·.adminpass), fun v s => { s with adminpass := v }, fun _ _ => rfl, fun _ => rfl⟩

def commandsNeedAdminpass : Field (List Sds) :=
  ⟨(·.commandsNeedAdminpass), fun v s => { s with commandsNeedAdminpass := v },
    fun _ _ => rfl, fun _ => rfl⟩

end Field

/-- What a setter does: the configuration it leaves behind, and whether it succeeded. -/
abbrev Setter := Value → VrConf → VrConf × Bool

def Field.write {α : Type} (f : Field α) (v : α) (c : VrConf) : VrConf :=
  { c with server := f.put v c.server }

def Field.commit {α : Type} (f : Field α) (v : α) (c : VrConf) : VrConf :=
  { server := f.put v c.server, version := c.version + 1 }

/-- `conf_set_int` and `conf_set_int_non_zero`: the value is in place before its range is
checked. -/
def setIntFrom (least : ℤ) (f : Field ℤ) : Setter
  | .array _, c => (c, false)
  | .string s, c =>
    if sdsIsNum s then
      if vrAtoi s < least then (f.write (vrAtoi s) c, false) else (f.commit (vrAtoi s) c, true)
    else (c, false)

def confSetInt : Field ℤ → Setter := setIntFrom 0

def confSetIntNonZero : Field ℤ → Setter := setIntFrom 1

def confSetMaxmemory (f : Field ℤ) : Setter
  | .array _, c => (c, false)
  | .string s, c =>
    match memtoll s with
    | none => (c, false)
    | some v => if v < 0 then (c, false) else (f.commit v c, true)

/-- `conf_set_maxmemory_policy`: also here the value is in place before it is refused, and the
version stays. -/
def confSetMaxmemoryPolicy (f : Field EvictPolicy) : Setter
  | .array _, c => (c, false)
  | .string s, c =>
    match EvictPolicy.all.find? fun p => cstr s == p.name with
    | none => (c, false)
    | some p => (f.write p c, !p.lru)

def confSetLonglong (f : Field ℤ) : Setter
  | .array _, c => (c, false)
  | .string s, c =>
    match string2ll s with
    | none => (c, false)
    | some v => (f.commit v c, true)

def authpassMaxLen : ℕ := 512

def confSetPassword (f : Field (Option Sds)) : Setter
  | .array _, c => (c, false)
  | .string s, c =>
    if authpassMaxLen < s.length then (c, false)
    else (f.commit (if s = [] then none else some s) c, true)

/-- `conf_set_array_sds`.  The type of one element is checked, at an index `j` that was never set:
outside of the array there is no telling what happens, here the setter fails. -/
def confSetArraySds (j : ℕ) (f : Field (List Sds)) : Setter
  | .string s, c => (f.commit [s] c, true)
  | .array l, c => if j < l.length then (f.commit l c, true) else (c, false)

/-- `conf_set_commands_need_adminpass`, which repeats `conf_set_array_sds`. -/
def confSetCommandsNeedAdminpass : ℕ → Field (List Sds) → Setter := confSetArraySds

/-- A value by the type of its field; the one `int` that stands for a policy is kept apart. -/
inductive FieldVal
  | int (v : ℤ)
  | policy (p : EvictPolicy)
  | longlong (v : ℤ)
  | sds (s : Option Sds)
  | arraysds (l : List Sds)
  deriving DecidableEq

inductive Opt
  | databases
  | internalDbsPerDatabases
  | maxmemory
  | maxmemoryPolicy
  | maxmemorySamples
  | maxTimeComplexityLimit
  | bind
  | port
  | threads
  | maxclients
  | slowlogLogSlowerThan
  | slowlogMaxLen
  | requirepass
  | adminpass
  | commandsNeedAdminpass
  deriving DecidableEq

namespace Opt

def all : List Opt :=
  [databases, internalDbsPerDatabases, maxmemory, maxmemoryPolicy, maxmemorySamples,
    maxTimeComplexityLimit, bind, port, threads, maxclients, slowlogLogSlowerThan, slowlogMaxLen,
    requirepass, adminpass, commandsNeedAdminpass]

def name : Opt → Sds
  | databases => ascii "databases".toList
  | internalDbsPerDatabases => ascii "internal-dbs-per-databases".toList
  | maxmemory => ascii "maxmemory".toList
  | maxmemoryPolicy => ascii "maxmemory-policy".toList
  | maxmemorySamples => ascii "maxmemory-samples".toList
  | maxTimeComplexityLimit => ascii "max-time-complexity-limit".toList
  | bind => ascii "bind".toList
  | port => ascii "port".toList
  | threads => ascii "threads".toList
  | maxclients => ascii "maxclients".toList
  | slowlogLogSlowerThan => ascii "slowlog-log-slower-than".toList
  | slowlogMaxLen => ascii "slowlog-max-len".toList
  | requirepass => ascii "requirepass".toList
  | adminpass => ascii "adminpass".toList
  | commandsNeedAdminpass => ascii "commands-need-adminpass".toList

/-- `CONF_FIELD_FLAGS_NO_MODIFY` -/
def noModify : Opt → Bool
  | databases | internalDbsPerDatabases | bind | port | threads | commandsNeedAdminpass => true
  | _ => false

/-- `opt->set`.  The uninitialised index of the array setters is `j`. -/
def set (j : ℕ) : Opt → Setter
  | databases => confSetIntNonZero .databases
  | internalDbsPerDatabases => confSetIntNonZero .internalDbsPerDatabases
  | maxmemory => confSetMaxmemory .maxmemory
  | maxmemoryPolicy => confSetMaxmemoryPolicy .maxmemoryPolicy
  | maxmemorySamples => confSetIntNonZero .maxmemorySamples
  | maxTimeComplexityLimit => confSetLonglong .maxTimeComplexityLimit
  | bind => confSetArraySds j .binds
  | port => confSetInt .port
  | threads => confSetInt .threads
  | maxclients => confSetIntNonZero .maxclients
  | slowlogLogSlowerThan => confSetLonglong .slowlogLogSlowerThan
  | slowlogMaxLen => confSetInt .slowlogMaxLen
  | requirepass => confSetPassword .requirepass
  | adminpass => confSetPassword .adminpass
  | commandsNeedAdminpass => confSetCommandsNeedAdminpass j .commandsNeedAdminpass

def get (s : Server) : Opt → FieldVal
  | databases => .int s.databases
  | internalDbsPerDatabases => .int s.internalDbsPerDatabases
  | maxmemory => .longlong s.maxmemory
  | maxmemoryPolicy => .policy s.maxmemoryPolicy
  | maxmemorySamples => .int s.maxmemorySamples
  | maxTimeComplexityLimit => .longlong s.maxTimeComplexityLimit
  | bind => .arraysds s.binds
  | port => .int s.port
  | threads => .int s.threads
  | maxclients => .int s.maxclients
  | slowlogLogSlowerThan => .longlong s.slowlogLogSlowerThan
  | slowlogMaxLen => .int s.slowlogMaxLen
  | requirepass => .sds s.requirepass
  | adminpass => .sds s.adminpass
  | commandsNeedAdminpass => .arraysds s.commandsNeedAdminpass

/-- `dictFetchValue(cserver->ctable, name)`: names are compared without regard to case. -/
def find (name : Sds) : Option Opt :=
  all.find? fun o => (cstr name).map tolower == o.name

end Opt

end Vire.Conf
