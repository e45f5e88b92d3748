import Vire.Keyspace.Host

/-!
# Internal databases

`redisDb` and the C-level API of `vr_db.c`.  A logical database is spread over `dbinum` internal
ones; a client points to one internal database of it at a time.  A function returns `none` where an
assertion fails and the server aborts.  The assertion of `getExpire`, that a key with a deadline is
in the database, is part of the invariant `Db.Ok`.
-/

namespace Vire

structure Db (V : Type) where
  dict : Dict Sds V
  expires : Dict Sds ℤ

/-- What `expireIfNeeded` and `expireGenericCommand` look at besides the database. -/
structure Role where
  loading : Bool
  slave : Bool

def Role.master : Role := ⟨false, false⟩

variable {V : Type}

def redisDbInit : Db V := ⟨.create, .create⟩

section

variable [HashFn]

def lookupKey (db : Db V) (key : Sds) : Option V := (dictFind db.dict key).map Prod.snd

def getExpire (db : Db V) (key : Sds) : ℤ :=
  if db.expires.size = 0 then -1
  else
    match dictFind db.expires key with
    | none => -1
    | some e => e.2

/-- The key gets the `sds` of the entry in the main dictionary. -/
def setExpire (db : Db V) (key : Sds) (when_ : ℤ) : Option (Db V) :=
  (dictFind db.dict key).map fun e => { db with expires := dictReplaceRaw db.expires e.1 when_ }

def removeExpire (db : Db V) (key : Sds) : Option (Db V × Bool) :=
  if (dictFind db.dict key).isSome then
    let r := dictDelete db.expires key
    some ({ db with expires := r.1 }, r.2.isSome)
  else none

def dbAdd (db : Db V) (key : Sds) (val : V) : Option (Db V) :=
  let r := dictAdd db.dict key val
  if r.2 then some { db with dict := r.1 } else none

/-- `dbOverwrite`; the deadline stays. -/
def dbOverwrite (db : Db V) (key : Sds) (val : V) : Option (Db V) :=
  if (dictFind db.dict key).isSome then some { db with dict := (dictReplace db.dict key val).1 }
  else none

def dbDelete (db : Db V) (key : Sds) : Db V × Bool :=
  let expires := if 0 < db.expires.size then (dictDelete db.expires key).1 else db.expires
  let r := dictDelete db.dict key
  (⟨r.1, expires⟩, r.2.isSome)

/-- The test of the read path. -/
def checkIfExpired (db : Db V) (key : Sds) (now : ℤ) : Bool :=
  let when_ := getExpire db key
  0 < when_ && when_ < now

/-- The test of the write path, which deletes the key. -/
def expireIfNeeded (role : Role) (db : Db V) (key : Sds) (now : ℤ) : Db V × Bool :=
  let when_ := getExpire db key
  if when_ < 0 then (db, false)
  else if role.loading then (db, false)
  else if role.slave then (db, when_ < now)
  else if now ≤ when_ then (db, false)
  else dbDelete db key

/-- The test of the active expire cycle on a sampled entry of `expires`. -/
def activeExpireCycleTryExpire (db : Db V) (de : Sds × ℤ) (now : ℤ) : Db V × Bool :=
  if de.2 < now then ((dbDelete db de.1).1, true) else (db, false)

def lookupKeyRead (db : Db V) (key : Sds) (now : ℤ) : Option V :=
  if checkIfExpired db key now then none else lookupKey db key

/-- `lookupKeyWrite(db, key, &expired)` -/
def lookupKeyWrite (role : Role) (db : Db V) (key : Sds) (now : ℤ) : Db V × Option V :=
  let db := (expireIfNeeded role db key now).1
  (db, lookupKey db key)

def setKey (role : Role) (expired : Bool) (db : Db V) (key : Sds) (val : V) (now : ℤ) :
    Option (Db V) :=
  let db := if expired then (expireIfNeeded role db key now).1 else db
  let stored := if (lookupKey db key).isNone then dbAdd db key val else dbOverwrite db key val
  stored.bind fun db => (removeExpire db key).map Prod.fst

end

end Vire
