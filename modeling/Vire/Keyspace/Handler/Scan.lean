import Vire.Keyspace.Scan
import Vire.Keyspace.Server

/-!
# SSCAN and HSCAN

`scanGenericCommand` for the elements of a set or a hash.  A dictionary is scanned from the cursor
on; an intset or a ziplist is returned as a whole.  What was found is one list of texts, in which
the value of a hash follows its field.
-/

namespace Vire.Handler

open Logic Prog

section

variable [HashFn]

/-- The cursor and the list of elements. -/
def scanSet (o : SetVal) (count : ℤ) (cursor : UInt64) : UInt64 × List Sds :=
  match o with
  | .ht d =>
    let s := scanDict d (fun e => [text e.1]) count cursor []
    (s.cursor, s.keys)
  | .intset is => (0, is.contents.map ll2string)

/-- The cursor and the list of fields and values.  `count *= 2` may overflow, and the loop compares
with `(unsigned long)count`. -/
def scanHash (o : HashVal) (count : ℤ) (cursor : UInt64) : UInt64 × List Sds :=
  match o with
  | .ht d =>
    let count := wrap (count * 2)
    let s := scanLoop d (fun e => [text e.1, text e.2]) (count % 2 ^ 64)
      (d.ht0.size + d.ht1.size + 1) (wrap (count * 10)) cursor []
    (s.cursor, s.keys)
  | .ziplist zl => (0, zl.map text)

end

variable [Host]

def accepts (pat : Option Sds) (s : Sds) : Bool :=
  match pat with
  | none => true
  | some pat => Host.stringmatch pat s

/-- The walk over the list, `pairs` telling whether values follow the keys.  A key without one is
`none`: the walk would go on from the node behind the last. -/
def filterKeys (pat : Option Sds) : Bool → List Sds → Option (List Sds)
  | _, [] => some []
  | false, key :: keys =>
    (filterKeys pat false keys).map fun rest => if accepts pat key then key :: rest else rest
  | true, [_] => none
  | true, key :: val :: keys =>
    (filterKeys pat true keys).map fun rest => if accepts pat key then key :: val :: rest else rest

def emptyscan : List Reply := [.multi 2, .bulk (ascii "0".toList), .multi 0]

def scanPage (cursor : UInt64) (keys : List Sds) : List Reply :=
  .multi 2 :: .bulk (ll2string (wrap cursor.toNat)) :: .multi keys.length :: keys.map .bulk

def scanGenericCommand {α : Type} (sel : Value → Option α)
    (scan : α → ℤ → UInt64 → UInt64 × List Sds) (pairs : Bool) : Cmd Unit := do
  match parseScanCursor (text (← arg 2)) with
  | .error e => addReply (.error e)
  | .ok cursor =>
    match parseScanOptions ((← args 3).map text) .default with
    | .error e => addReply (.error e)
    | .ok o =>
      lockKey .read fun key => do
        withSome (← lookupKeyRead key) (do addReplies emptyscan; unlockDb) fun v =>
          withSome (sel v) (do addReply wrongtypeerr; unlockDb) fun a => do
            let r := scan a o.count cursor
            unlockDb
            let keys ← orHalt (filterKeys o.pat pairs r.2)
            addReplies (scanPage r.1 keys)

def sscanCommand : Cmd Unit := scanGenericCommand Value.set? scanSet false

def hscanCommand : Cmd Unit := scanGenericCommand Value.hash? scanHash true

end Vire.Handler
