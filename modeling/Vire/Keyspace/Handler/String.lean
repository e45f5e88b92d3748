import Vire.Keyspace.Expire
import Vire.Keyspace.Server
import Vire.Keyspace.Type.Bits

/-!
# String commands

The handlers of `vr_t_string.c` and `vr_bitops.c` that work on one key, without those for numbers
with a fraction.
-/

namespace Vire.Handler

open Logic Prog

variable [Host]

def dupValue (o : Robj) (h : Heap) : Value × Heap :=
  let d := dupStringObjectUnconstant o h
  (.str d.1, d.2)

/-- `setGenericCommand`; `name` is that of the command. -/
def setGenericCommand (name : Sds) (flags : SetFlags) (key : Sds) (val : Robj)
    (expire : Option Sds) (unit : TimeUnit) (okReply abortReply : Reply) : Cmd Unit :=
  match expire.map fun e => expireMillis name e unit with
  | some (.error e) => addReply (.error e)
  | some (.ok ms) => store (some ms)
  | none => store none
where
  store (milliseconds : Option ℤ) : Cmd Unit := do
    fetchInternalDbByKey key
    lockDbWrite
    let old ← lookupKeyWrite key
    if flags.nx && old.isSome || flags.xx && old.isNone then
      unlockDb
      addReply abortReply
    else
      setKey key (dupValue val) false
      withSome milliseconds (pure ()) fun ms => do setExpire key (wrap ((← msecNow) + ms))
      addReply okReply
      unlockDb

def setCommand : Cmd Unit := do
  withSome (parseSetOptions ((← args 3).map text) ⟨.none, none, .seconds⟩) (addReply syntaxerr)
    fun o => do
      encodeArg 2
      setGenericCommand (ascii "set".toList) o.flags (text (← arg 1)) (← arg 2) o.expire
        o.unit ok .nil

/-- The test that is made before the sum is computed. -/
def incrOverflows (oldvalue incr : ℤ) : Bool :=
  incr < 0 && oldvalue < 0 && incr < llongMin - oldvalue ||
    0 < incr && 0 < oldvalue && llongMax - oldvalue < incr

def incrOverflowErr : Reply := err "increment or decrement would overflow"

/-- A string, or no value; `none` for a value of another type. -/
def strOrMissing : Option Value → Option (Option Robj)
  | none => some none
  | some v => v.str?.map some

def numberValue (value : ℤ) (h : Heap) : Value × Heap :=
  let new := createStringObjectFromLongLong value h
  (.str new.1, new.2)

/-- `incrDecrCommand`.  The branch that changes an integer in place asks for a reference count of 1,
which no object has. -/
def incrDecrCommand (incr : ℤ) : Cmd Unit :=
  lockKey .write fun key => do
    withSome (strOrMissing (← lookupKeyWrite key)) (do addReply wrongtypeerr; unlockDb) fun o =>
      withSome (o.elim (some 0) getLongLongFromObject) (do addReply notAnInteger; unlockDb)
        fun oldvalue => do
          if incrOverflows oldvalue incr then
            addReply incrOverflowErr
            unlockDb
          else
            let value := oldvalue + incr
            let _ ← if o.isSome then dbOverwrite key (numberValue value)
              else dbAdd key (numberValue value)
            addReply (.int value)
            unlockDb

def incrCommand : Cmd Unit := incrDecrCommand 1

def decrCommand : Cmd Unit := incrDecrCommand (-1)

def incrbyCommand : Cmd Unit := do withLong (← arg 2) incrDecrCommand

def decrbyCommand : Cmd Unit := do withLong (← arg 2) fun incr => incrDecrCommand (wrap (-incr))

def rawValue (s : Sds) (h : Heap) : Value × Heap :=
  let o := createRawStringObject s h
  (.str o.1, o.2)

def strOf : Value → Robj
  | .str o => o
  | _ => sharedInteger 0

/-- `o->ptr` of the value of a key is set to another string. -/
def setString (key : Sds) (o : Robj) (s : Sds) : Cmd Robj :=
  let o' : Robj := { o with enc := .raw s }
  update key fun h => some (o', .str o', h.write o.addr (.raw s))

def dbUnshareStringValue (key : Sds) (o : Robj) : Cmd Robj :=
  match o.constant, o.enc with
  | false, .raw _ => pure o
  | _, _ => do return strOf (← dbOverwrite key (rawValue (text o)))

def sdsgrowzero (s : Sds) (len : ℕ) : Sds := s ++ List.replicate (len - s.length) 0

/-- `checkStringLength`.  The size is a `long long`. -/
@[irreducible]
def checkStringLength (size : ℤ) : Bool := size ≤ 512 * 1024 * 1024

def stringTooLong : Reply := err "string exceeds maximum allowed size (512MB)"

/-- Memory for a string.  There are never `2 ^ 63` bytes, and the null pointer that is returned then
is not looked at before it is used. -/
def allocString (len : ℕ) : Cmd Unit := Prog.assert (decide (len < 2 ^ 63))

def setrange (s : Sds) (offset : ℕ) (value : Sds) : Sds :=
  let s := sdsgrowzero s (offset + value.length)
  s.take offset ++ value ++ s.drop (offset + value.length)

/-- `offset+sdslen(value)` as an argument of `checkStringLength`. -/
def setrangeLength (offset : ℤ) (value : Sds) : ℤ := wrap (offset + value.length)

def setrangeCommand : Cmd Unit := do
  let value := text (← arg 3)
  withLong (← arg 2) fun offset =>
    if offset < 0 then addReply (err "offset is out of range")
    else
      lockKey .write fun key => do
        withSome (← lookupKeyWrite key) (create key value offset) fun v =>
          withSome v.str? (do addReply wrongtypeerr; unlockDb) (change key value offset)
where
  create (key value : Sds) (offset : ℤ) : Cmd Unit :=
    if value = [] then do
      unlockDb
      addReply czero
    else if !checkStringLength (setrangeLength offset value) then do
      addReply stringTooLong
      unlockDb
    else do
      allocString (offset.toNat + value.length)
      let v ← dbAdd key (rawValue (List.replicate (offset.toNat + value.length) 0))
      finish key value offset (strOf v)
  change (key value : Sds) (offset : ℤ) (o : Robj) : Cmd Unit :=
    if value = [] then do
      unlockDb
      addReply (.int (stringObjectLen o))
    else if !checkStringLength (setrangeLength offset value) then do
      addReply stringTooLong
      unlockDb
    else do
      let o ← dbUnshareStringValue key o
      allocString (offset.toNat + value.length)
      finish key value offset o
  finish (key value : Sds) (offset : ℤ) (o : Robj) : Cmd Unit := do
    let o ← setString key o (setrange (text o) offset.toNat value)
    addReply (.int (text o).length)
    unlockDb

def appendCommand : Cmd Unit :=
  lockKey .write fun key => do
    withSome (← lookupKeyWrite key) (create key) fun v =>
      withSome v.str? (do addReply wrongtypeerr; unlockDb) (change key)
where
  create (key : Sds) : Cmd Unit := do
    encodeArg 2
    let val ← arg 2
    let _ ← dbAdd key (dupValue val)
    addReply (.int (stringObjectLen val))
    unlockDb
  change (key : Sds) (o : Robj) : Cmd Unit := do
    let append := text (← arg 2)
    if !checkStringLength (wrap (stringObjectLen o + append.length)) then
      addReply stringTooLong
      unlockDb
    else
      let o ← dbUnshareStringValue key o
      allocString ((text o).length + append.length)
      let o ← setString key o (text o ++ append)
      addReply (.int (text o).length)
      unlockDb

def bytesOf (s : Sds) (r : ℤ × ℤ) : Sds := (s.drop r.1.toNat).take (r.2 - r.1 + 1).toNat

def getrangeCommand : Cmd Unit := do
  let stop ← arg 3
  withLong (← arg 2) fun start =>
    withLong stop fun stop =>
      readKey Value.str? emptybulk fun o => do
        let str := text o
        let r := byteRange start stop str.length
        addReply (if r.2 < r.1 ∨ str.length = 0 then emptybulk else .bulk (bytesOf str r))
        unlockDb

/-- `getLongFromObjectOrReply` while the lock is held. -/
def withLongLocked (o : Robj) (k : ℤ → Cmd Unit) : Cmd Unit :=
  withSome (getLongLongFromObject o) (do addReply notAnInteger; unlockDb) k

/-- `bitcountCommand`.  Where the string is in memory, comes from outside. -/
def bitcountCommand : Cmd Unit :=
  readKey Value.str? czero fun o => do
    let s := text o
    let argc ← argc
    let p ← someNat
    if argc = 4 then
      let stop ← arg 3
      withLongLocked (← arg 2) fun start =>
        withLongLocked stop fun stop => count p s (byteRange start stop s.length)
    else if argc = 2 then count p s (0, s.length - 1)
    else
      unlockDb
      addReply syntaxerr
where
  count (p : ℕ) (s : Sds) (r : ℤ × ℤ) : Cmd Unit := do
    addReply (if r.2 < r.1 then czero else .int (redisPopcount (p + r.1.toNat) (bytesOf s r)))
    unlockDb

def bitOffsetErr : Reply := err "bit offset is not an integer or out of range"

def bitErr : Reply := err "bit is not an integer or out of range"

def withBitOffset (o : Robj) (k : ℕ → Cmd Unit) : Cmd Unit :=
  withSome (getBitOffsetFromArgument (text o)) (addReply bitOffsetErr) k

def lookupStringForBitCommand (key : Sds) (maxbit : ℕ) (body : Robj → Cmd Unit) : Cmd Unit := do
  let byte := maxbit / 8
  withSome (← lookupKeyWrite key)
    (do
      let v ← dbAdd key (rawValue (List.replicate (byte + 1) 0))
      body (strOf v))
    fun v => withSome v.str? (do addReply wrongtypeerr; unlockDb) fun o => do
      let o ← dbUnshareStringValue key o
      let o ← setString key o (sdsgrowzero (text o) (byte + 1))
      body o

def setbitCommand : Cmd Unit := do
  let on ← arg 3
  withBitOffset (← arg 2) fun bitoffset =>
    withSome (getLongLongFromObject on) (addReply bitErr) fun on =>
      if on ≠ 0 ∧ on ≠ 1 then addReply bitErr
      else
        lockKey .write fun key => lookupStringForBitCommand key bitoffset fun o => do
          let bitval := getbit (text o) bitoffset
          let _ ← setString key o (setbit (text o) bitoffset (on = 1))
          addReply (if bitval then cone else czero)
          unlockDb

def getbitCommand : Cmd Unit := do
  withBitOffset (← arg 2) fun bitoffset =>
    readKey Value.str? czero fun o => do
      addReply (if getbit (text o) bitoffset then cone else czero)
      unlockDb

def bitposCommand : Cmd Unit := do
  withLong (← arg 2) fun bit =>
    if bit ≠ 0 ∧ bit ≠ 1 then addReply (err "The bit argument must be 1 or 0.")
    else
      readKey Value.str? (.int (if bit = 1 then -1 else 0)) fun o => do
        let s := text o
        let argc ← argc
        let p ← someNat
        if argc = 4 ∨ argc = 5 then
          let stop ← arg 4
          withLongLocked (← arg 3) fun start =>
            if argc = 5 then withLongLocked stop fun stop =>
              find p s (bit = 1) (byteRange start stop s.length) true
            else find p s (bit = 1) (byteRange start (s.length - 1) s.length) false
        else if argc = 3 then find p s (bit = 1) (0, s.length - 1) false
        else
          unlockDb
          addReply syntaxerr
where
  find (p : ℕ) (s : Sds) (bit : Bool) (r : ℤ × ℤ) (endGiven : Bool) : Cmd Unit :=
    if r.2 < r.1 then do
      addReply (.int (-1))
      unlockDb
    else do
      let pos ← orHalt (redisBitpos (p + r.1.toNat) (bytesOf s r) bit)
      if endGiven && !bit && pos = (r.2 - r.1 + 1) * 8 then
        unlockDb
        addReply (.int (-1))
      else
        addReply (.int (if pos = -1 then -1 else pos + r.1 * 8))
        unlockDb

end Vire.Handler
