import Vire.Dict.Iterator
import Vire.Keyspace.Server

/-!
# KEYS

`keysCommand` of `vr_db.c`.  It goes through the internal databases with a safe iterator for each,
under the write lock, and deletes the expired keys among those that match.
-/

namespace Vire.Handler

open Logic Prog

variable [Host]

/-- `pattern[0] == '*' && pattern[1] == '\0'`; behind the last byte of a string there is a zero
byte. -/
def allkeys (pattern : Sds) : Bool := pattern.getD 0 0 == 42 && pattern.getD 1 0 == 0

def addDeferredMultiBulkLength : Cmd ℕ := do
  let replylen ← readP fun c => c.out.length
  addReply .nil
  return replylen

def setDeferredMultiBulkLength (replylen : ℕ) (length : ℤ) : Cmd Unit :=
  modifyP fun c => { c with out := c.out.set replylen (.multi length) }

def countKeys : ℕ → ℕ → ℤ → Cmd ℤ
  | 0, _, keysCount => pure keysCount
  | n + 1, idx, keysCount => do
    fetchInternalDbById idx
    lockDbWrite
    let size ← reading fun _ db => db.dict.size
    unlockDb
    countKeys n (idx + 1) (keysCount + size)

def nextKey (di : DictIterator) : Cmd (Option Sds × DictIterator) :=
  writing fun _ s =>
    let r := dictNext s.db.dict di
    ((r.1, r.2.1), { s with db := { s.db with dict := r.2.2 } })

def releaseIterator (di : DictIterator) : Cmd Unit :=
  writing fun _ s => ((), { s with db := { s.db with dict := dictReleaseIterator s.db.dict di } })

/-- The loop over the keys of a database, at most `n` turns: the iterator and the number of keys
sent. -/
def keysLoop (pattern : Sds) : ℕ → DictIterator → ℕ → Cmd (DictIterator × ℕ)
  | 0, _, _ => .halt
  | n + 1, di, numkeys => do
    let r ← nextKey di
    match r.1 with
    | none => pure (r.2, numkeys)
    | some key =>
      if allkeys pattern || Host.stringmatch pattern key then do
        let keyobj ← inMemory (createStringObject key)
        let expired ← expireIfNeeded (text keyobj)
        addReplies (if expired then [] else [.bulk (text keyobj)])
        inMemory fun h => ((), h.free keyobj)
        keysLoop pattern n r.2 (if expired then numkeys else numkeys + 1)
      else keysLoop pattern n r.2 numkeys

def keysDbs (pattern : Sds) : ℕ → ℕ → ℕ → Cmd ℕ
  | 0, _, numkeys => pure numkeys
  | n + 1, idx, numkeys => do
    fetchInternalDbById idx
    lockDbWrite
    let size ← reading fun _ db => db.dict.size
    let r ← keysLoop pattern (size + 1) dictGetSafeIterator numkeys
    releaseIterator r.1
    unlockDb
    keysDbs pattern n (idx + 1) r.2

/-- `keysCommand`, with `max-time-complexity-limit`, which is off if it is 0. -/
def keysCommand (maxTimeComplexityLimit : ℤ) : Cmd Unit := do
  let pattern := text (← arg 1)
  let keysCount ← countKeys Host.dbinum 0 0
  if maxTimeComplexityLimit ≠ 0 ∧
    maxTimeComplexityLimit < keysCount then addReply outofcomplexitylimit
  else do
    let replylen ← addDeferredMultiBulkLength
    let numkeys ← keysDbs pattern Host.dbinum 0 0
    setDeferredMultiBulkLength replylen numkeys

end Vire.Handler
