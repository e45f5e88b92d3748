import Vire.Keyspace.Scan

/-!
# Deadlines

SET, EXPIRE and PERSIST with their variants, and the server as a store whose clock goes on.  All
other handlers, the active expire cycle, the eviction and the rehashing of the backend reach a
database through the calls of the C-level API only.
-/

namespace Vire

variable {V : Type}

inductive TimeUnit
  | seconds
  | milliseconds
  deriving DecidableEq

structure SetFlags where
  nx : Bool
  xx : Bool
  ex : Bool
  px : Bool
  deriving DecidableEq

def SetFlags.none : SetFlags := ⟨false, false, false, false⟩

/-- The options of SET: flags, the argument with the time, and its unit. -/
structure SetOptions where
  flags : SetFlags
  expire : Option Sds
  unit : TimeUnit
  deriving DecidableEq

def parseSetOptions : List Sds → SetOptions → Option SetOptions
  | [], o => some o
  | [a], o =>
    if strcaseEq a ['n', 'x'] && !o.flags.xx
      then some { o with flags := { o.flags with nx := true } }
    else if strcaseEq a ['x', 'x'] && !o.flags.nx then
      some { o with flags := { o.flags with xx := true } }
    else none
  | a :: next :: argv, o =>
    if strcaseEq a ['n', 'x'] && !o.flags.xx then
      parseSetOptions (next :: argv) { o with flags := { o.flags with nx := true } }
    else if strcaseEq a ['x', 'x'] && !o.flags.nx then
      parseSetOptions (next :: argv) { o with flags := { o.flags with xx := true } }
    else if strcaseEq a ['e', 'x'] && !o.flags.px then
      parseSetOptions argv ⟨{ o.flags with ex := true }, some next, .seconds⟩
    else if strcaseEq a ['p', 'x'] && !o.flags.ex then
      parseSetOptions argv ⟨{ o.flags with px := true }, some next, .milliseconds⟩
    else none

/-- The replies of `setGenericCommand`; what `ok` and `abort` stand for depends on the command. -/
inductive SetReply
  | ok
  | abort
  | error (msg : Sds)
  deriving DecidableEq

/-- The time to live in milliseconds.  The multiplication may overflow. -/
def expireMillis (name expire : Sds) (unit : TimeUnit) : Except Sds ℤ :=
  match getLongLong expire with
  | none => .error notAnInteger
  | some ms =>
    if ms ≤ 0 then .error (ascii "-ERR invalid expire time in ".toList ++ name)
    else .ok (if unit = .seconds then wrap (ms * 1000) else ms)

section

variable [HashFn]

/-- `setGenericCommand` from the lock on. -/
def setUnderLock (role : Role) (flags : SetFlags) (key : Sds) (val : V)
    (millis : Option ℤ) (now : ℤ) (db : Db V) : Option (Db V) × SetReply :=
  let r := lookupKeyWrite role db key now
  if flags.nx && r.2.isSome || flags.xx && r.2.isNone then (some r.1, .abort)
  else
    let stored := setKey role false r.1 key val now
    (match millis with
      | none => stored
      | some ms => stored.bind fun db => setExpire db key (wrap (now + ms)), .ok)

def setGenericCommand (role : Role) (name : Sds) (o : SetOptions) (key : Sds) (val : V) (now : ℤ)
    (db : Db V) : Option (Db V) × SetReply :=
  match o.expire with
  | none => setUnderLock role o.flags key val none now db
  | some expire =>
    match expireMillis name expire o.unit with
    | .error e => (some db, .error e)
    | .ok ms => setUnderLock role o.flags key val (some ms) now db

inductive ExpireReply
  | error (msg : Sds)
  | czero
  | cone
  deriving DecidableEq

/-- The deadline the arguments stand for, in milliseconds. -/
def expireWhen (when_ basetime : ℤ) (unit : TimeUnit) : ℤ :=
  wrap ((if unit = .seconds then wrap (when_ * 1000) else when_) + basetime)

/-- `expireGenericCommand`.  A deadline that is not in the future deletes the key. -/
def expireGenericCommand (role : Role) (key param : Sds) (basetime : ℤ) (unit : TimeUnit) (now : ℤ)
    (db : Db V) : Option (Db V) × ExpireReply :=
  match getLongLong param with
  | none => (some db, .error notAnInteger)
  | some when_ =>
    let when_ := expireWhen when_ basetime unit
    let r := lookupKeyWrite role db key now
    if r.2.isNone then (some r.1, .czero)
    else if when_ ≤ now && !role.loading && !role.slave then
      let r := dbDelete r.1 key
      (if r.2 then some r.1 else none, .cone)
    else (setExpire r.1 key when_, .cone)

def persistCommand (key : Sds) (db : Db V) : Option (Db V) × ExpireReply :=
  if (dictFind db.dict key).isNone then (some db, .czero)
  else
    match removeExpire db key with
    | none => (none, .czero)
    | some r => (some r.1, if r.2 then .cone else .czero)

inductive DbCall (V : Type)
  | set (name : Sds) (o : SetOptions) (key : Sds) (val : V)
  | expire (key param : Sds) (relative : Bool) (unit : TimeUnit)
  | persist (key : Sds)
  /-- `expireIfNeeded`, also as part of `lookupKeyWrite`. -/
  | expireIfNeeded (key : Sds)
  | dbAdd (key : Sds) (val : V)
  | dbOverwrite (key : Sds) (val : V)
  /-- A handler changes a value in place. -/
  | alter (key : Sds) (f : V → V)
  | setKey (expired : Bool) (key : Sds) (val : V)
  | dbDelete (key : Sds)
  /-- The active expire cycle samples an entry of `expires`, with the time it read before. -/
  | activeExpireCycle (random age : ℕ)
  | dictEmpty
  /-- `dictRehash` of either dictionary, also as part of `dictGetRandomKey`. -/
  | rehash (n m : ℕ)
  | tryResizeHashTables

def tryResizeHashTables (db : Db V) : Db V := ⟨resizeIfNeeded db.dict, resizeIfNeeded db.expires⟩

def activeExpireCycleSample (random : ℕ) (now : ℤ) (db : Db V) : Db V :=
  let r := dictGetRandomKey db.expires random
  let db := { db with expires := r.2 }
  match r.1 with
  | none => db
  | some de => (activeExpireCycleTryExpire db de now).1

def DbCall.run (now : ℕ) (db : Db V) : DbCall V → Option (Db V)
  | set name o key val => (setGenericCommand .master name o key val now db).1
  | expire key param relative unit =>
    (expireGenericCommand .master key param (if relative then now else 0) unit now db).1
  | persist key => (persistCommand key db).1
  | expireIfNeeded key => some (Vire.expireIfNeeded .master db key now).1
  | dbAdd key val => Vire.dbAdd db key val
  | dbOverwrite key val => Vire.dbOverwrite db key val
  | alter key f =>
    (dictFind db.dict key).map fun e => { db with dict := db.dict.setVal key (f e.2) }
  | setKey expired key val => Vire.setKey .master expired db key val now
  | dbDelete key => some (Vire.dbDelete db key).1
  | activeExpireCycle random age => some (activeExpireCycleSample random (now - age : ℕ) db)
  | dictEmpty => some redisDbInit
  | rehash n m => some ⟨(dictRehash db.dict n).1, (dictRehash db.expires m).1⟩
  | tryResizeHashTables => some (Vire.tryResizeHashTables db)

inductive Call (V : Type)
  | tick (ms : ℕ)
  | on (i : ℕ) (c : DbCall V)

structure Store (V : Type) where
  dbs : ℕ → Db V
  now : ℕ

def Store.init (now : ℕ) : Store V := ⟨fun _ => redisDbInit, now⟩

def Store.step (s : Store V) : Call V → Option (Store V)
  | .tick ms => some { s with now := s.now + ms }
  | .on i c => (c.run s.now (s.dbs i)).map fun db => { s with dbs := Function.update s.dbs i db }

end

end Vire
