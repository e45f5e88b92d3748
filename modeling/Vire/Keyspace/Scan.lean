import Vire.Keyspace.Db

/-!
# SCAN

`scanGenericCommand` for the keys of a logical database.  When a dictionary is through, the scan
goes on with the next internal database, which is kept in the client's `scanid` and not in the
cursor.
-/

namespace Vire

variable {K V : Type}

structure ScanOptions where
  count : ℤ
  pat : Option Sds
  deriving DecidableEq

def ScanOptions.default : ScanOptions := ⟨10, none⟩

def syntaxerr : Sds := ascii "-ERR syntax error".toList

def notAnInteger : Sds := ascii "-ERR value is not an integer or out of range".toList

def invalidCursor : Sds := ascii "-ERR invalid cursor".toList

/-- `parseScanCursorOrReply`.  `strtoul` takes a number with a sign, modulo `2 ^ 64`. -/
def parseScanCursor (s : Sds) : Except Sds UInt64 :=
  let r := strtoll (cstr s)
  if (s.head?.map isspace).getD false || r.2 ≠ [] || 2 ^ 64 ≤ r.1.natAbs then .error invalidCursor
  else .ok (UInt64.ofInt r.1)

/-- Step 1.  The pattern `*` matches everything, so it is not used. -/
def parseScanOptions : List Sds → ScanOptions → Except Sds ScanOptions
  | [], o => .ok o
  | [_], _ => .error syntaxerr
  | name :: value :: argv, o =>
    if strcaseEq name ['c', 'o', 'u', 'n', 't'] then
      match getLongLong value with
      | none => .error notAnInteger
      | some count =>
        if count < 1 then .error syntaxerr else parseScanOptions argv { o with count }
    else if strcaseEq name ['m', 'a', 't', 'c', 'h'] then
      parseScanOptions argv { o with pat := if value = [42] then none else some value }
    else .error syntaxerr

/-- What the loop over a dictionary leaves: the cursor, the elements found, and the cursors whose
buckets were examined. -/
structure Scanned where
  cursor : UInt64
  keys : List Sds
  cursors : List UInt64

/-- `do … while (cursor && maxiterations-- && dlistLength(keys) < count)`.  `scanCallback` appends
what `emit` makes of an entry. -/
def scanLoop [HashFn] (d : Dict K V) (emit : K × V → List Sds) (count : ℤ) :
    ℕ → ℤ → UInt64 → List Sds → Scanned
  | 0, _, cursor, keys => ⟨cursor, keys, []⟩
  | n + 1, maxiterations, cursor, keys =>
    let r := dictScan d cursor
    let keys := keys ++ r.1.flatMap emit
    if r.2 ≠ 0 ∧ maxiterations ≠ 0 ∧ keys.length < count then
      let s := scanLoop d emit count n (wrap (maxiterations - 1)) r.2 keys
      { s with cursors := cursor :: s.cursors }
    else ⟨r.2, keys, [cursor]⟩

/-- The cursor is 0 again after at most as many rounds as there are buckets. -/
def scanDict [HashFn] (d : Dict K V) (emit : K × V → List Sds) (count : ℤ) (cursor : UInt64)
    (keys : List Sds) : Scanned :=
  scanLoop d emit count (d.ht0.size + d.ht1.size + 1) (wrap (count * 10)) cursor keys

/-- What is left after the iteration: the client's `scanid`, the cursor and the keys, the internal
database the client points to, and all that was examined. -/
structure ScannedDbs where
  scanid : Option ℕ
  cursor : UInt64
  keys : List Sds
  last : ℕ
  visited : List (ℕ × List UInt64)

/-- From `scan_retry` on, with `n` internal databases after number `id`. -/
def scanDbs [HashFn] (dbs : ℕ → Db V) (count : ℤ) : ℕ → ℕ → UInt64 → List Sds → ScannedDbs
  | 0, id, cursor, keys =>
    let s := scanDict (dbs id).dict (fun e => [e.1]) count cursor keys
    ⟨if s.cursor = 0 then none else some id, s.cursor, s.keys, id, [(id, s.cursors)]⟩
  | n + 1, id, cursor, keys =>
    let s := scanDict (dbs id).dict (fun e => [e.1]) count cursor keys
    if s.cursor = 0 then
      let r := scanDbs dbs count n (id + 1) 0 s.keys
      { r with visited := (id, s.cursors) :: r.visited }
    else ⟨some id, s.cursor, s.keys, id, [(id, s.cursors)]⟩

/-- The fields of the client that SCAN uses; `scanid` is `none` for `-1`. -/
structure ScanClient where
  dictid : ℕ
  scanid : Option ℕ
  deriving DecidableEq

inductive ScanReply
  | error (msg : Sds)
  | page (cursor : Sds) (keys : List Sds)
  deriving DecidableEq

structure ScanRun where
  client : ScanClient
  reply : ScanReply
  visited : List (ℕ × List UInt64)
  deriving DecidableEq

variable [Host]

def fetchInternalDbById (dbs : ℕ → Db V) (dictid : ℕ) (idx : ℕ) : Db V :=
  dbs (idx + dictid * Host.dbinum)

def ScanClient.resume (c : ScanClient) (cursor : UInt64) : ℕ :=
  if cursor = 0 then 0 else c.scanid.getD 0

/-- Step 3.  Expired keys are looked up in the internal database that was scanned last. -/
def scanFilter (o : ScanOptions) (db : Db V) (now : ℤ) (keys : List Sds) : List Sds :=
  keys.filter fun key =>
    (match o.pat with
      | none => true
      | some pat => Host.stringmatch pat key) && !checkIfExpired db key now

def scanCommand (dbs : ℕ → Db V) (now : ℤ) (c : ScanClient) (argv : List Sds) : ScanRun :=
  match parseScanCursor (argv.headD []) with
  | .error e => ⟨c, .error e, []⟩
  | .ok cursor =>
    match parseScanOptions argv.tail .default with
    | .error e => ⟨c, .error e, []⟩
    | .ok o =>
      let db := fetchInternalDbById dbs c.dictid
      let id := c.resume cursor
      let r := scanDbs db o.count (Host.dbinum - 1 - id) id cursor []
      ⟨{ c with scanid := r.scanid },
        .page (ll2string (wrap r.cursor.toNat)) (scanFilter o (db r.last) now r.keys), r.visited⟩

end Vire
