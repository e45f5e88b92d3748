import Mathlib.Logic.Function.Iterate
import Vire.Keyspace.Scan

/-!
# RANDOMKEY

`randomkeyCommand` with the random numbers it draws: `draws n` are those for the bucket and for the
place in its chain in round `n`.  The loops have no bound of their own: a function returns `none` if
the rounds it is given are not enough.
-/

namespace Vire

variable {K V : Type}

/-- What `random()` returns in a round. -/
structure Draw where
  bucket : ℕ
  pos : ℕ

namespace Dict

/-- The number of buckets to choose from: while rehashing those of both tables, without the first
ones, which have been moved. -/
def buckets (d : Dict K V) : ℕ :=
  match d.rehashidx with
  | some i => d.ht0.size + d.ht1.size - i
  | none => d.ht0.size

def bucketNo (d : Dict K V) (random : ℕ) : ℕ :=
  match d.rehashidx with
  | some i => random % (d.ht0.size + d.ht1.size - i)
  | none => random &&& d.ht0.sizemask

def bucketAt (d : Dict K V) (b : ℕ) : List (K × V) :=
  match d.rehashidx with
  | some i =>
    let h := i + b
    if d.ht0.size ≤ h then d.ht1.chain (h - d.ht0.size) else d.ht0.chain h
  | none => d.ht0.chain b

def draw (d : Dict K V) (r : Draw) : Option (K × V) :=
  let chain := d.bucketAt (d.bucketNo r.bucket)
  chain[r.pos % chain.length]?

end Dict

/-- The loop of `dictGetRandomKey`, from round `n` on: the entry, and the number of the next
round. -/
def drawLoop (d : Dict K V) (draws : ℕ → Draw) : ℕ → ℕ → Option ((K × V) × ℕ)
  | 0, _ => none
  | rounds + 1, n =>
    match d.draw (draws n) with
    | some e => some (e, n + 1)
    | none => drawLoop d draws rounds (n + 1)

/-- `dbRandomKey`: the key, what becomes of the database, and the number of the next round.
`dictGetRandomKey` does a step of rehashing before it draws. -/
def dbRandomKey [HashFn] (now : ℤ) (draws : ℕ → Draw) :
    ℕ → Db V → ℕ → Option (Option Sds × Db V × ℕ)
  | 0, _, _ => none
  | rounds + 1, db, n =>
    if db.dict.size = 0 then some (none, db, n)
    else
      let db := { db with dict := rehashStepIf db.dict }
      match drawLoop db.dict draws rounds n with
      | none => none
      | some (e, n) =>
        if (dictFind db.expires e.1).isSome && checkIfExpired db e.1 now then
          dbRandomKey now draws rounds db n
        else some (some e.1, db, n)

variable [Host]

/-- From `retry` on, with `retries` left: the key of the reply, and what becomes of the
databases. -/
def randomkeyRetry (dictid : ℕ) (now : ℤ) (draws : ℕ → Draw) (rounds : ℕ) :
    ℕ → (ℕ → Db V) → ℕ → ℕ → Option (Option Sds × (ℕ → Db V))
  | 0, dbs, idx, n =>
    (dbRandomKey now draws rounds (fetchInternalDbById dbs dictid idx) n).map fun r =>
      (r.1, Function.update dbs (idx + dictid * Host.dbinum) r.2.1)
  | retries + 1, dbs, idx, n =>
    match dbRandomKey now draws rounds (fetchInternalDbById dbs dictid idx) n with
    | none => none
    | some (some key, db, _) =>
      some (some key, Function.update dbs (idx + dictid * Host.dbinum) db)
    | some (none, db, n) =>
      randomkeyRetry dictid now draws rounds retries
        (Function.update dbs (idx + dictid * Host.dbinum) db)
        (if Host.dbinum ≤ idx + 1 then 0 else idx + 1) n

/-- `randomkeyCommand`; `none` for the null reply.  The internal database to begin with is drawn
first. -/
def randomkeyCommand (dictid : ℕ) (now : ℤ) (random : ℕ) (draws : ℕ → Draw) (rounds : ℕ)
    (dbs : ℕ → Db V) : Option (Option Sds × (ℕ → Db V)) :=
  randomkeyRetry dictid now draws rounds Host.dbinum dbs (random % Host.dbinum) 0

end Vire
