import Vire.Keyspace.Handler.String

/-!
# Hash commands

The handlers of `vr_t_hash.c`, without HINCRBYFLOAT and HSCAN.
-/

namespace Vire.Handler

open Logic Prog

variable [Host]

/-- `hashTypeLookupWriteOrCreate` and what all its callers do if it returns no hash. -/
def hashTypeLookupWriteOrCreate (key : Sds) (body : HashVal → Cmd Unit) : Cmd Unit := do
  withSome (← lookupKeyWrite key)
    (do
      let _ ← dbAdd key fun h => (.hash createHashObject, h)
      body createHashObject)
    fun v => withSome v.hash? (do addReply wrongtypeerr; unlockDb) body

/-- `hashTypeTryConversion(o, argv, …)` on the hash of the key. -/
def tryConversion (key : Sds) (o : HashVal) (args : List Robj) : Cmd HashVal :=
  update key fun h => (hashTypeTryConversion o args h).map fun r => (r.1, .hash r.1, r.2)

/-- `hashTypeTryObjectEncoding(o, &c->argv[i], &c->argv[j])` -/
def hashTypeTryObjectEncoding (o : HashVal) (i j : ℕ) : Cmd Unit :=
  match o with
  | .ht _ => do
    encodeArg i
    encodeArg j
  | .ziplist _ => pure ()

/-- `hashTypeSet(o, c->argv[i], c->argv[j])` on the hash of the key. -/
def setField (key : Sds) (o : HashVal) (i j : ℕ) : Cmd (Bool × HashVal) := do
  let field ← arg i
  let value ← arg j
  Prog.assert (hashTypeHasRoom o field value)
  update key fun h => (hashTypeSet o field value h).map fun r => ((r.1, r.2.1), .hash r.2.1, r.2.2)

/-- `hashTypeGetFromZiplist` or `hashTypeGetFromHashTable` -/
def getField (o : HashVal) (field : Robj) : Cmd (Option HashItem) := do
  let r ← inMemory fun h =>
    match hashTypeGet o field h with
    | none => (none, h)
    | some r => (some r.1, r.2)
  orHalt r

def hsetCommand : Cmd Unit :=
  lockKey .write fun key => hashTypeLookupWriteOrCreate key fun o => do
    let o ← tryConversion key o [← arg 2, ← arg 3]
    hashTypeTryObjectEncoding o 2 3
    let r ← setField key o 2 3
    addReply (if r.1 then czero else cone)
    unlockDb

def hsetnxCommand : Cmd Unit :=
  lockKey .write fun key => hashTypeLookupWriteOrCreate key fun o => do
    let o ← tryConversion key o [← arg 2, ← arg 3]
    if (← getField o (← arg 2)).isSome then addReply czero
    else
      hashTypeTryObjectEncoding o 2 3
      let _ ← setField key o 2 3
      addReply cone
    unlockDb

def hmsetLoop (key : Sds) : ℕ → ℕ → HashVal → Cmd Unit
  | 0, _, _ => pure ()
  | n + 1, i, o => do
    hashTypeTryObjectEncoding o i (i + 1)
    let r ← setField key o i (i + 1)
    hmsetLoop key n (i + 2) r.2

def hmsetCommand : Cmd Unit := do
  let argc ← argc
  if argc % 2 = 1 then addReply (err "wrong number of arguments for HMSET")
  else
    lockKey .write fun key => hashTypeLookupWriteOrCreate key fun o => do
      let o ← tryConversion key o (← args 2)
      hmsetLoop key ((argc - 2) / 2) 2 o
      addReply ok
      unlockDb

/-- The number of a field, 0 if it is missing.  `hashTypeGetObject` makes an object of the entry of
a ziplist, which is freed when it has been read. -/
def fieldNumber (current : Option HashItem) (h : Heap) : Option ℤ × Heap :=
  match current with
  | none => (some 0, h)
  | some (.obj o) => (getLongLongFromObject o, h)
  | some (.entry e) =>
    let o := e.object h
    (getLongLongFromObject o.1, o.2.free o.1)

def encodeField (o : HashVal) (i : ℕ) : Cmd Unit :=
  match o with
  | .ht _ => encodeArg i
  | .ziplist _ => pure ()

/-- `hincrbyCommand`.  Unlike the other commands that set a field it does not look at how long the
field is, so a ziplist may get long entries. -/
def hincrbyCommand : Cmd Unit := do
  withLong (← arg 3) fun incr =>
    lockKey .write fun key => hashTypeLookupWriteOrCreate key fun o => do
      let current ← getField o (← arg 2)
      withSome (← inMemory (fieldNumber current))
        (do addReply (err "hash value is not an integer"); unlockDb) fun oldvalue =>
          if incrOverflows oldvalue incr then do
            addReply incrOverflowErr
            unlockDb
          else increment key o (oldvalue + incr)
where
  increment (key : Sds) (o : HashVal) (value : ℤ) : Cmd Unit := do
    let new ← inMemory (createStringObjectFromLongLong value)
    encodeField o 2
    let field ← arg 2
    Prog.assert (ziplistHasRoom o (text field) (text new))
    let _ ← update key fun h => (hashTypeSet o field new h).map fun r => ((), .hash r.2.1, r.2.2)
    inMemory fun h => ((), h.free new)
    addReply (.int value)
    unlockDb

/-- The loop of `hdelCommand`, which ends when the hash is empty; the number of removed fields. -/
def hdelLoop (key : Sds) : List Robj → HashVal → ℕ → Cmd ℕ
  | [], _, deleted => pure deleted
  | field :: fields, o, deleted => do
    let r ← update key fun h =>
      let r := hashTypeDelete o field h
      some ((r.1, r.2.1), .hash r.2.1, r.2.2)
    if r.1 then
      if hashTypeLength r.2 = 0 then
        let _ ← dbDelete key
        pure (deleted + 1)
      else hdelLoop key fields r.2 (deleted + 1)
    else hdelLoop key fields r.2 deleted

def hdelCommand : Cmd Unit :=
  writeKey Value.hash? czero fun key o => do
    let deleted ← hdelLoop key (← args 2) o 0
    unlockDb
    addReply (.int deleted)

def addHashFieldToReply (o : Option HashVal) (field : Robj) : Cmd Unit :=
  match o with
  | none => addReply .nil
  | some o => do
    match ← getField o field with
    | none => addReply .nil
    | some item => addReply (.bulk item.text)

def hgetCommand : Cmd Unit :=
  readKey Value.hash? .nil fun o => do
    addHashFieldToReply (some o) (← arg 2)
    unlockDb

def hmgetLoop (o : Option HashVal) : List Robj → Cmd Unit
  | [] => pure ()
  | field :: fields => do
    addHashFieldToReply o field
    hmgetLoop o fields

/-- A missing key is an empty hash. -/
def hmgetCommand : Cmd Unit :=
  lockKey .read fun key => do
    let v ← lookupKeyRead key
    let o := v.bind Value.hash?
    if v.isSome ∧ o.isNone then
      unlockDb
      addReply wrongtypeerr
    else
      addReply (.multi ((← argc) - 2))
      hmgetLoop o (← args 2)
      unlockDb

def hlenCommand : Cmd Unit :=
  readKey Value.hash? czero fun o => do
    addReply (.int (hashTypeLength o))
    unlockDb

def hstrlenCommand : Cmd Unit :=
  readKey Value.hash? czero fun o => do
    let item ← getField o (← arg 2)
    addReply (.int (hashTypeGetValueLength item))
    unlockDb

def hexistsCommand : Cmd Unit :=
  readKey Value.hash? czero fun o => do
    addReply (if (← getField o (← arg 2)).isSome then cone else czero)
    unlockDb

/-- What `genericHgetallCommand` sends for a pair; the flags are `OBJ_HASH_KEY` and
`OBJ_HASH_VALUE`. -/
def hgetallItems (key value : Bool) (p : HashItem × HashItem) : List HashItem :=
  (if key then [p.1] else []) ++ if value then [p.2] else []

/-- `genericHgetallCommand`; both `length` and `count` are of type `int`. -/
def genericHgetallCommand (key value : Bool) : Cmd Unit :=
  readKey Value.hash? emptymultibulk fun o => do
    let multiplier := (if key then 1 else 0) + if value then 1 else 0
    let length := int32 (hashTypeLength o * multiplier : ℕ)
    addReply (.multi length)
    let pairs ← orHalt (hashTypePairs o)
    let items := pairs.flatMap (hgetallItems key value)
    addReplies (items.map fun i => .bulk i.text)
    Prog.assert (int32 items.length == length)
    unlockDb

def hkeysCommand : Cmd Unit := genericHgetallCommand true false

def hvalsCommand : Cmd Unit := genericHgetallCommand false true

def hgetallCommand : Cmd Unit := genericHgetallCommand true true

end Vire.Handler
