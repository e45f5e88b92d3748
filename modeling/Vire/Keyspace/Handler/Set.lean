import Vire.Keyspace.Server

/-!
# Set commands

The handlers of `vr_t_set.c` that work on one set.  SPOP is the variant without a count.
-/

namespace Vire.Handler

open Logic Prog

variable [Host]

/-- The loop of `saddCommand`; the number of new members. -/
def saddLoop (key : Sds) : List ℕ → SetVal → ℕ → Cmd ℕ
  | [], _, added => pure added
  | j :: js, set, added => do
    encodeArg j
    let value ← arg j
    Prog.assert (setTypeHasRoom set value)
    let r ← update key fun h =>
      (setTypeAdd set value h).map fun r => ((r.1, r.2.1), .set r.2.1, r.2.2)
    saddLoop key js r.2 (if r.1 then added + 1 else added)

def saddCommand : Cmd Unit :=
  lockKey .write fun key => do
    withSome (← lookupKeyWrite key)
      (do
        let set := setTypeCreate (← arg 2)
        let _ ← dbAdd key fun h => (.set set, h)
        add key set)
      fun v => withSome v.set? (do unlockDb; addReply wrongtypeerr) (add key)
where
  add (key : Sds) (set : SetVal) : Cmd Unit := do
    let added ← saddLoop key (List.range' 2 ((← argc) - 2)) set 0
    addReply (.int added)
    unlockDb

/-- The loop of `sremCommand`, which ends when the set is empty; the number of removed members. -/
def sremLoop (key : Sds) : List Robj → SetVal → ℕ → Cmd ℕ
  | [], _, deleted => pure deleted
  | value :: values, set, deleted => do
    let r ← update key fun h =>
      let r := setTypeRemove set value h
      some ((r.1, r.2.1), .set r.2.1, r.2.2)
    if r.1 then
      if setTypeSize r.2 = 0 then
        let _ ← dbDelete key
        pure (deleted + 1)
      else sremLoop key values r.2 (deleted + 1)
    else sremLoop key values r.2 deleted

def sremCommand : Cmd Unit :=
  writeKey Value.set? czero fun key set => do
    let deleted ← sremLoop key (← args 2) set 0
    addReply (.int deleted)
    unlockDb

def sismemberCommand : Cmd Unit :=
  readKey Value.set? czero fun set => do
    encodeArg 2
    if setTypeIsMember set (← arg 2) then addReply cone else addReply czero
    unlockDb

def scardCommand : Cmd Unit :=
  readKey Value.set? czero fun set => do
    addReply (.int (setTypeSize set))
    unlockDb

def smembersGenericCommand (set : SetVal) : Cmd Unit := do
  addReply (.multi (setTypeSize set))
  addReplies ((setTypeElems set).map fun e => .bulk e.text)

def smembersCommand : Cmd Unit :=
  readKey Value.set? emptymultibulk fun set => do
    smembersGenericCommand set
    unlockDb

def spopElement (set : SetVal) (r : ℕ) (h : Heap) : Option (Robj × SetVal × Heap) :=
  match setTypeRandomElement set r with
  | (some (.num llele), .intset is) =>
    let ele := createStringObjectFromLongLong llele h
    some (ele.1, .intset (intsetRemove is llele).1, ele.2)
  | (some (.obj o), set) =>
    let ele := dupStringObjectUnconstant o h
    let rest := setTypeRemove set ele.1 ele.2
    some (ele.1, rest.2)
  | _ => none

/-- `spopCommand` of a key without a count.  The command is rewritten to SREM for replication. -/
def spopCommand : Cmd Unit :=
  writeKey Value.set? .nil fun key set => do
    let random ← someNat
    let r ← update key fun h =>
      (spopElement set random h).map fun r => ((r.1, r.2.1), .set r.2.1, r.2.2)
    let aux1 ← inMemory (createStringObject (ascii "SREM".toList))
    let aux2 ← inMemory (dupStringObjectUnconstant (← arg 1))
    rewriteClientCommandVector [aux1, aux2, r.1]
    addReply (.bulk (text r.1))
    if setTypeSize r.2 = 0 then
      let _ ← dbDelete (text (← arg 1))
    unlockDb

end Vire.Handler
