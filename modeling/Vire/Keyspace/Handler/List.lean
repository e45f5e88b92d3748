import Vire.Keyspace.Server

/-!
# List commands

The handlers of `vr_t_list.c` for the commands on the ends of a list and on its indexes.
-/

namespace Vire.Handler

open Logic Prog

variable [Host]

/-- `if (!lobj) { … dbAdd(c->db,c->argv[1],lobj); }` -/
def createList (key : Sds) : Option Quicklist → Cmd Quicklist
  | some ql => pure ql
  | none => do
    let _ ← dbAdd key fun h => (.list createQuicklistObject, h)
    pure createQuicklistObject

def pushLoop (key : Sds) (w : Where) : List ℕ → Option Quicklist → Cmd (Option Quicklist)
  | [], lobj => pure lobj
  | j :: js, lobj => do
    encodeArg j
    let ql ← createList key lobj
    let value ← arg j
    let ql ← update key fun h => (listTypePush ql value w h).map fun r => (r.1, .list r.1, r.2)
    pushLoop key w js (some ql)

def pushGenericCommand (w : Where) : Cmd Unit :=
  lockKey .write fun key => do
    let v ← lookupKeyWrite key
    let lobj := v.bind Value.list?
    if v.isSome ∧ lobj.isNone then
      unlockDb
      addReply wrongtypeerr
    else
      let lobj ← pushLoop key w (List.range' 2 ((← argc) - 2)) lobj
      addReply (.int ((lobj.map listTypeLength).getD 0 : ℕ))
      unlockDb

def lpushCommand : Cmd Unit := pushGenericCommand .head

def rpushCommand : Cmd Unit := pushGenericCommand .tail

def popGenericCommand (w : Where) : Cmd Unit :=
  writeKey Value.list? .nil fun key o => do
    let r ← update key fun h => (listTypePop o w h).map fun r => ((r.1, r.2.1), .list r.2.1, r.2.2)
    match r.1 with
    | none => addReply .nil
    | some value =>
      addReply (.bulk (text value))
      inMemory fun h => ((), h.free value)
      if listTypeLength r.2 = 0 then let _ ← dbDelete key
    unlockDb

def lpopCommand : Cmd Unit := popGenericCommand .head

def rpopCommand : Cmd Unit := popGenericCommand .tail

def llenCommand : Cmd Unit :=
  readKey Value.list? czero fun o => do
    addReply (.int (listTypeLength o))
    unlockDb

def lindexCommand : Cmd Unit := do
  withLong (← arg 2) fun index =>
    readKey Value.list? .nil fun o => do
      match quicklistIndex o index with
      | some entry =>
        let value ← inMemory entry.value.object
        addReply (.bulk (text value))
        inMemory fun h => ((), h.free value)
      | none => addReply .nil
      unlockDb

def lsetCommand : Cmd Unit := do
  withLong (← arg 2) fun index =>
    writeKey Value.list? nokeyerr fun key o => do
      let value ← arg 3
      let replaced ← update key fun h =>
        (quicklistReplaceAtIndex o index (text value)).map fun r => (r.1, .list r.2, h)
      addReply (if replaced then ok else outofrangeerr)
      unlockDb

def lremCommand : Cmd Unit := do
  withLong (← arg 2) fun toremove =>
    writeKey Value.list? czero fun key o => do
      let obj ← arg 3
      let r ← update key fun h => (listTypeRemove o toremove (text obj)).map fun r =>
        (r, .list r.2, h)
      if listTypeLength r.2 = 0 then let _ ← dbDelete key
      addReply (.int r.1)
      unlockDb

def withRange (k : ℤ → ℤ → Cmd Unit) : Cmd Unit := do
  withLong (← arg 2) fun start => do
    withLong (← arg 3) fun stop => k start stop

def lrangeCommand : Cmd Unit :=
  withRange fun start stop =>
    readKey Value.list? emptymultibulk fun o => do
      let llen : ℤ := listTypeLength o
      let r := convertIndexes start stop llen
      if emptyRange r llen then
        unlockDb
        addReply emptymultibulk
      else
        let rangelen := clampStop r.2 llen - r.1 + 1
        addReply (.multi rangelen)
        let items := listTypeRange rangelen.toNat (quicklistGetIteratorAtIdx o r.1)
        addReplies (items.map fun e => .bulk (text e))
        unlockDb

def ltrimCommand : Cmd Unit :=
  withRange fun start stop =>
    writeKey Value.list? ok fun key o => do
      let ql ← update key fun h => (listTypeTrim o start stop).map fun ql => (ql, .list ql, h)
      if listTypeLength ql = 0 then let _ ← dbDelete key
      addReply ok
      unlockDb

end Vire.Handler
