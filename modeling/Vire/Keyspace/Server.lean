import Vire.Keyspace.Db
import Vire.Keyspace.Type.Hash
import Vire.Keyspace.Type.List
import Vire.Keyspace.Type.Set
import Vire.Logic.Sequential

/-!
# The server as threads that work on databases

A handler is a program of `Vire.Logic.Prog`.  Its registers are the fields of the client it works
for; it takes and gives back the lock of the internal database `c->db` points to.  Statistics,
keyspace events, watched keys and replication are left out.  What a client is sent is a list of
replies, with the texts of the objects in them.
-/

namespace Vire

/-- `vr_t_zset.c`: small sorted sets are ziplists of alternating elements and scores, all others a
skiplist with a dictionary from elements to scores, to which the objects belong. -/
inductive ZsetVal
  | ziplist (l : List (Sds × Sds))
  | skiplist (zsl : List (Score × Robj)) (dict : Dict Robj Score)

def ZsetVal.objs : ZsetVal → List Robj
  | ziplist _ => []
  | skiplist _ d => d.entries.map Prod.fst

inductive Value
  | str (o : Robj)
  | list (l : Quicklist)
  | set (s : SetVal)
  | hash (h : HashVal)
  | zset (z : ZsetVal)

namespace Value

def objs : Value → List Robj
  | str o => [o]
  | list _ => []
  | set s => s.objs
  | hash h => h.objs
  | zset z => z.objs

/-! `checkType`: the content of a value of the right type. -/

def str? : Value → Option Robj
  | str o => some o
  | _ => none

def list? : Value → Option Quicklist
  | list l => some l
  | _ => none

def set? : Value → Option SetVal
  | set s => some s
  | _ => none

def hash? : Value → Option HashVal
  | hash h => some h
  | _ => none

end Value

structure Kv where
  heap : Heap
  db : Db Value

inductive Op (β : Type)
  /-- On the database the registers point to, at a time. -/
  | db (f : ℕ → Kv → β × Kv)
  | mem (f : Heap → β × Heap)
  /-- `vr_msec_now`, or the time that goes by. -/
  | clock (f : ℕ → β × ℕ)

/-- All internal databases, memory and the clock, in milliseconds. -/
structure Server where
  dbs : ℕ → Db Value
  heap : Heap
  now : ℕ

def Server.init (now : ℕ) : Server := ⟨fun _ => redisDbInit, .init, now⟩

inductive Reply
  | status (s : Sds)
  | error (s : Sds)
  | int (i : ℤ)
  | bulk (s : Sds)
  | nil
  | multi (n : ℤ)
  deriving DecidableEq

/-- The fields of a client that the handlers use.  `db` is also the database that the loops of
`freeMemoryIfNeeded`, FLUSHALL and the backend are at, which have a variable of their own for it;
every handler sets it before it uses it. -/
structure Client where
  db : ℕ
  dictid : ℕ
  scanid : Option ℕ
  argv : List Robj
  out : List Reply

open Logic in
/-- What the operations do.  A lock is that of the internal database `db` of the client. -/
instance : Machine Client Server Op where
  perform o c s :=
    match o with
    | .db f =>
      let r := f s.now ⟨s.heap, s.dbs c.db⟩
      (r.1, { s with heap := r.2.heap, dbs := Function.update s.dbs c.db r.2.db })
    | .mem f =>
      let r := f s.heap
      (r.1, { s with heap := r.2 })
    | .clock f =>
      let r := f s.now
      (r.1, { s with now := r.2 })

abbrev Cmd := Logic.Prog Client Op

/-- `crc16tab[i]`: what eight rounds of the polynomial make of a byte. -/
def crc16tab (i : UInt32) : UInt32 :=
  (List.range 8).foldl (fun c _ =>
    (if c &&& 0x8000 = 0 then c <<< 1 else (c <<< 1) ^^^ 0x1021) &&& 0xffff) (i <<< 8)

def crc16 (key : Sds) : UInt32 :=
  key.foldl (fun crc b => (crc <<< 8) ^^^ crc16tab (((crc >>> 8) ^^^ b.toUInt32) &&& 0xff)) 0

example : crc16tab 0xff = 0x1ef0 ∧ crc16 (ascii "123456789".toList) &&& 0xffff = 0x31c3 := by decide

variable [Host]

def homeIdx (key : Sds) : ℕ := (crc16 key &&& 0x3fff).toNat % Host.dbinum

def home (dictid : ℕ) (key : Sds) : ℕ := homeIdx key + dictid * Host.dbinum

namespace Handler

open Logic Prog

/-- `c->argv[j]`; the handlers know from the arity of their command which arguments there are. -/
def arg (j : ℕ) : Cmd Robj := readP fun c => c.argv.getD j (sharedInteger 0)

def args (j : ℕ) : Cmd (List Robj) := readP fun c => c.argv.drop j

def argc : Cmd ℕ := readP fun c => c.argv.length

def setArg (j : ℕ) (o : Robj) : Cmd Unit := modifyP fun c => { c with argv := c.argv.set j o }

def addReply (r : Reply) : Cmd Unit := modifyP fun c => { c with out := c.out ++ [r] }

def addReplies (r : List Reply) : Cmd Unit := modifyP fun c => { c with out := c.out ++ r }

def fetchInternalDbByKey (key : Sds) : Cmd Unit :=
  modifyP fun c => { c with db := home c.dictid key }

def fetchInternalDbById (idx : ℕ) : Cmd Unit :=
  modifyP fun c => { c with db := idx + c.dictid * Host.dbinum }

def lockDbRead : Cmd Unit := lockP .read

def lockDbWrite : Cmd Unit := lockP .write

def unlockDb : Cmd Unit := unlockP

def reading {α : Type} (f : ℕ → Db Value → α) : Cmd α := actP (.db fun now s => (f now s.db, s))

def writing {α : Type} (f : ℕ → Kv → α × Kv) : Cmd α := actP (.db f)

def inMemory {α : Type} (f : Heap → α × Heap) : Cmd α := actP (.mem f)

def msecNow : Cmd ℤ := actP (.clock fun now => ((now : ℤ), now))

/-- An answer of the random number generator or the clock that decides how a loop goes on. -/
def someNat : Cmd ℕ := do return (← askP).toNat

def withSome {α : Type} (o : Option α) (other : Cmd Unit) (k : α → Cmd Unit) : Cmd Unit :=
  match o with
  | none => other
  | some a => k a

/-- `serverAssert`: the thread stops if there is no value. -/
def orHalt {α : Type} : Option α → Cmd α
  | none => .halt
  | some a => pure a

def ok : Reply := .status (ascii "OK".toList)
def czero : Reply := .int 0
def cone : Reply := .int 1
def emptybulk : Reply := .bulk []
def emptymultibulk : Reply := .multi 0
def err (s : String) : Reply := .error (ascii ("-ERR " ++ s).toList)
def wrongtypeerr : Reply :=
  .error (ascii "-WRONGTYPE Operation against a key holding the wrong kind of value".toList)
def nokeyerr : Reply := err "no such key"
def syntaxerr : Reply := err "syntax error"
def outofrangeerr : Reply := err "index out of range"
def outofcomplexitylimit : Reply := err "Out of max time complexity limit."
def notAnInteger : Reply := err "value is not an integer or out of range"

def withLong (o : Robj) (k : ℤ → Cmd Unit) : Cmd Unit :=
  withSome (getLongLongFromObject o) (addReply notAnInteger) k

/-- `c->argv[j] = tryObjectEncoding(c->argv[j]);` -/
def encodeArg (j : ℕ) : Cmd Unit := do
  let o ← inMemory (tryObjectEncoding (← arg j))
  setArg j o

def rewriteClientCommandVector (argv : List Robj) : Cmd Unit := do
  let old ← args 0
  inMemory fun h => ((), h.freeAll old)
  modifyP fun c => { c with argv := argv }

def lookupKeyRead (key : Sds) : Cmd (Option Value) :=
  reading fun now db => Vire.lookupKeyRead db key now

/-- The values of a database that are given back to memory when their key is deleted or set. -/
def freeValue (v : Option Value) (h : Heap) : Heap :=
  match v with
  | none => h
  | some v => h.freeAll v.objs

/-- `dbDelete` with the destructor of the value. -/
def dbDeleteKv (key : Sds) (s : Kv) : Bool × Kv :=
  let r := Vire.dbDelete s.db key
  (r.2, ⟨freeValue (lookupKey s.db key) s.heap, r.1⟩)

def dbDelete (key : Sds) : Cmd Bool := writing fun _ => dbDeleteKv key

def expireIfNeededKv (key : Sds) (now : ℤ) (s : Kv) : Bool × Kv :=
  let when_ := getExpire s.db key
  if when_ < 0 ∨ now ≤ when_ then (false, s) else dbDeleteKv key s

def expireIfNeeded (key : Sds) : Cmd Bool := writing fun now => expireIfNeededKv key now

def lookupKeyWrite (key : Sds) : Cmd (Option Value) :=
  writing fun now s =>
    let s := (expireIfNeededKv key now s).2
    (lookupKey s.db key, s)

/-- `dbAdd`, which asserts that the key is new.  `make` creates the value. -/
def dbAdd (key : Sds) (make : Heap → Value × Heap) : Cmd Value := do
  let v ← writing fun _ s =>
    let v := make s.heap
    match Vire.dbAdd s.db key v.1 with
    | none => (none, s)
    | some db => (some v.1, ⟨v.2, db⟩)
  orHalt v

/-- `dbOverwrite`, which asserts that the key is there; the old value is freed. -/
def dbOverwrite (key : Sds) (make : Heap → Value × Heap) : Cmd Value := do
  let v ← writing fun _ s =>
    let v := make s.heap
    match Vire.dbOverwrite s.db key v.1 with
    | none => (none, s)
    | some db => (some v.1, ⟨freeValue (lookupKey s.db key) v.2, db⟩)
  orHalt v

def removeExpire (key : Sds) : Cmd Bool := do
  let r ← writing fun _ s =>
    match Vire.removeExpire s.db key with
    | none => (none, s)
    | some r => (some r.2, { s with db := r.1 })
  orHalt r

def setExpire (key : Sds) (when_ : ℤ) : Cmd Unit := do
  let r ← writing fun _ s =>
    match Vire.setExpire s.db key when_ with
    | none => (none, s)
    | some db => (some (), { s with db := db })
  orHalt r

/-- A handler changes the value it has a pointer to, in place; `none` where an assertion fails. -/
def update {α : Type} (key : Sds) (f : Heap → Option (α × Value × Heap)) : Cmd α := do
  let r ← writing fun _ s =>
    match f s.heap with
    | none => (none, s)
    | some r => (some r.1, ⟨r.2.2, { s.db with dict := s.db.dict.setVal key r.2.1 }⟩)
  orHalt r

/-- `setKey`; with `expired` the lookup deletes an expired key. -/
def setKey (key : Sds) (make : Heap → Value × Heap) (expired : Bool) : Cmd Unit := do
  if expired then let _ ← expireIfNeeded key
  let old ← reading fun _ db => lookupKey db key
  if old.isNone then let _ ← dbAdd key make
  else let _ ← dbOverwrite key make
  let _ ← removeExpire key

/-- `fetchInternalDbByKey(c,c->argv[1]); lockDbRead(c->db);` or `lockDbWrite` -/
def lockKey (m : Mode) (body : Sds → Cmd Unit) : Cmd Unit := do
  let key := text (← arg 1)
  fetchInternalDbByKey key
  lockP m
  body key

/-- `lookupKeyReadOrReply` or `lookupKeyWriteOrReply` and `checkType`: a missing key and one of the
wrong type are answered. -/
def orReply {α : Type} (sel : Value → Option α) (missing : Reply) (v : Option Value)
    (body : α → Cmd Unit) : Cmd Unit :=
  withSome v (do addReply missing; unlockDb) fun v =>
    withSome (sel v) (do addReply wrongtypeerr; unlockDb) body

/-- The handlers that look at one key.  `body` gives the lock back. -/
def readKey {α : Type} (sel : Value → Option α) (missing : Reply) (body : α → Cmd Unit) :
    Cmd Unit :=
  lockKey .read fun key => do orReply sel missing (← lookupKeyRead key) body

/-- The handlers that change a key which has to be there. -/
def writeKey {α : Type} (sel : Value → Option α) (missing : Reply)
    (body : Sds → α → Cmd Unit) : Cmd Unit :=
  lockKey .write fun key => do orReply sel missing (← lookupKeyWrite key) (body key)

end Handler

def createArgv : List Sds → Heap → List Robj × Heap
  | [], h => ([], h)
  | s :: argv, h =>
    let o := createStringObject s h
    let r := createArgv argv o.2
    (o.1 :: r.1, r.2)

/-- A command of a client, with the time it is served at and what its handler gets from outside. -/
structure Request (C : Type) where
  cmd : C
  now : ℕ
  world : ℕ → ℤ

/-- The handler `proc` serves a request.  The arguments are freed by `resetClient`. -/
def call (dictid : ℕ) (proc : Cmd Unit) (argv : List Sds) (now : ℕ) (world : ℕ → ℤ) (s : Server) :
    Option (List Reply × Server) :=
  let a := createArgv argv s.heap
  let c : Client := ⟨dictid * Host.dbinum, dictid, none, a.1, []⟩
  (proc.run world c { s with heap := a.2, now := now }).map fun r =>
    (r.2.1.out, { r.2.2 with heap := r.2.2.heap.freeAll r.2.1.argv })

/-- `call` for a family of commands, each with its handler and its arguments. -/
def serve {C : Type} (dictid : ℕ) (proc : C → Cmd Unit) (argv : C → List Sds) (r : Request C) :
    Server → Option (List Reply × Server) :=
  call dictid (proc r.cmd) (argv r.cmd) r.now r.world

end Vire
