import Vire.Conf.Cache
import Vire.Keyspace.Expire

/-!
# Eviction

`freeMemoryIfNeeded`, run by several workers while others change the configuration, the keyspace and
the memory in use.  It is called by `processCommand` and by CONFIG SET maxmemory.  A call compares
the memory in use with the limit in the worker's cache first, and after each database with the limit
in the shared configuration.  What it does to a database is one step; so are reading an option and
reading the memory in use.  The two LRU policies are left out: a call does not go on with one.
-/

namespace Vire.Evict

open Vire.Conf (EvictPolicy)

variable {V : Type}

section

variable [HashFn]

/-- The loop of `volatile-ttl`: of as many random entries of `expires` the one that expires first,
and the dictionary after the steps of rehashing. -/
def ttlLoop : ℕ → (ℕ → ℕ) → Dict Sds ℤ → Option (Sds × ℤ) → Option (Sds × ℤ) × Dict Sds ℤ
  | 0, _, d, best => (best, d)
  | n + 1, random, d, best =>
    let r := dictGetRandomKey d (random 0)
    let best := match best, r.1 with
      | none, de => de
      | some b, some de => if de.2 < b.2 then some de else some b
      | some b, none => some b
    ttlLoop n (fun k => random (k + 1)) r.2 best

/-- The key to evict, and the database with the dictionary it was drawn from. -/
def bestkey (policy : EvictPolicy) (samples : ℤ) (random : ℕ → ℕ) (db : Db V) : Option Sds × Db V :=
  match policy with
  | .allkeysRandom =>
    let r := dictGetRandomKey db.dict (random 0)
    (r.1.map Prod.fst, { db with dict := r.2 })
  | .volatileRandom =>
    let r := dictGetRandomKey db.expires (random 0)
    (r.1.map Prod.fst, { db with expires := r.2 })
  | .volatileTtl =>
    let r := ttlLoop samples.toNat random db.expires none
    (r.1.map Prod.fst, { db with expires := r.2 })
  | _ => (none, db)

def candidates (policy : EvictPolicy) (db : Db V) : ℕ :=
  if policy = .allkeysLru ∨ policy = .allkeysRandom then db.dict.size else db.expires.size

/-- What a call does to a database that has candidates, and whether it evicted a key. -/
def evictFrom (policy : EvictPolicy) (samples : ℤ) (random : ℕ → ℕ) (db : Db V) : Db V × Bool :=
  let r := bestkey policy samples random db
  match r.1 with
  | none => (r.2, false)
  | some key => ((dbDelete r.2 key).1, true)

end

/-- The variables of a call that goes through the databases.  `maxmemory` is the limit it has read
from the shared configuration last, `none` before the first eviction: the cached one is not used
again. -/
structure Vars where
  maxmemory : Option ℤ
  policy : EvictPolicy
  samples : ℤ
  j : ℕ
  keysFreed : ℕ

inductive Phase
  /-- not in `freeMemoryIfNeeded` -/
  | out
  /-- CONFIG SET has set maxmemory and reads it next -/
  | set
  /-- it has read this limit and reads the memory in use next -/
  | check (maxmemory : ℤ)
  /-- it calls `freeMemoryIfNeeded` next -/
  | enter
  /-- the policy is read next -/
  | policy
  /-- the samples are read next -/
  | samples (policy : EvictPolicy)
  /-- database `j` comes next -/
  | db (v : Vars)
  /-- the limit is read next -/
  | limit (v : Vars)
  /-- the memory in use is read next -/
  | compare (v : Vars)

structure State (V : Type) where
  sys : Conf.State
  dbs : ℕ → Db V
  used : ℕ
  now : ℕ
  phase : ℕ → Phase

/-- `dalloc_used_memory() <= maxmemory`, a comparison of unsigned numbers. -/
def fits (used : ℕ) (maxmemory : ℤ) : Bool := used ≤ maxmemory % 2 ^ 64

/-- A step of a worker in `freeMemoryIfNeeded`, or on the way to it. -/
inductive CallAct
  | call
  | getPolicy
  | getSamples
  | visit (random : ℕ → ℕ)
  | getMaxmemory
  | compare

inductive Act (V : Type)
  /-- what a worker does to its cache and to the configuration, outside of `freeMemoryIfNeeded` -/
  | conf (a : Conf.Act)
  | free (w : ℕ) (a : CallAct)
  /-- a command or the backend changes a database -/
  | other (i : ℕ) (c : DbCall V)
  | alloc (used : ℕ)
  | tick (ms : ℕ)

def idleCache (s : State V) (w : ℕ) : Option Conf.Cache :=
  match s.sys.worker w with
  | some ⟨cc, .idle⟩ => some cc
  | _ => none

def worker? : Conf.Act → Option ℕ
  | .work w _ => some w
  | _ => none

def isOut : Phase → Bool
  | .out => true
  | _ => false

/-- The worker that sets maxmemory in this step, in a CONFIG SET that succeeds. -/
def setsLimit (j : ℕ) (sys : Conf.State) : Conf.Act → Option ℕ
  | .work w .set =>
    match sys.worker w with
    | some ⟨_, .setting .maxmemory value⟩ =>
      if (Conf.Opt.maxmemory.set j (Conf.splitValue value) sys.conf).2 then some w else none
    | _ => none
  | _ => none

def State.goto (s : State V) (w : ℕ) (p : Phase) : State V :=
  { s with phase := Function.update s.phase w p }

variable [Host]

def dbnum : ℕ := Host.dblnum * Host.dbinum

/-- One turn of the `for` loop, or its end and the next turn of the `while` loop. -/
def visitStep (s : State V) (random : ℕ → ℕ) (v : Vars) : Phase × (ℕ → Db V) :=
  if v.j < dbnum then
    if candidates v.policy (s.dbs v.j) = 0 then (.db { v with j := v.j + 1 }, s.dbs)
    else
      let r := evictFrom v.policy v.samples random (s.dbs v.j)
      (.limit { v with keysFreed := v.keysFreed + r.2.toNat }, Function.update s.dbs v.j r.1)
  else if v.keysFreed = 0 then (.out, s.dbs)
  else (.db { v with j := 0, keysFreed := 0 }, s.dbs)

/-- The beginning of `freeMemoryIfNeeded`. -/
def enterStep (s : State V) (cc : Conf.Cache) :
    Phase := if fits s.used cc.maxmemory then .out else .policy

/-- What a worker does in this phase: `processCommand` calls `freeMemoryIfNeeded` only if the cached
limit is not 0, CONFIG SET if the limit it has set is neither 0 nor enough, whatever is cached. -/
def callStep (s : State V) (w : ℕ) : Phase → CallAct → Option (Phase × (ℕ → Db V))
  | .out, .call =>
    (idleCache s w).bind fun cc => if cc.maxmemory = 0 then none else some (enterStep s cc, s.dbs)
  | .set, .getMaxmemory =>
    let m := s.sys.conf.server.maxmemory
    some (if m = 0 then .out else .check m, s.dbs)
  | .check m, .compare => some (if fits s.used m then .out else .enter, s.dbs)
  | .enter, .call => (idleCache s w).map fun cc => (enterStep s cc, s.dbs)
  | .policy, .getPolicy =>
    let policy := s.sys.conf.server.maxmemoryPolicy
    if policy.lru then none
    else some (if policy = .noeviction then .out else .samples policy, s.dbs)
  | .samples policy, .getSamples =>
    some (.db ⟨none, policy, s.sys.conf.server.maxmemorySamples, 0, 0⟩, s.dbs)
  | .db v, .visit random => some (visitStep s random v)
  | .limit v, .getMaxmemory =>
    some (.compare { v with maxmemory := some s.sys.conf.server.maxmemory }, s.dbs)
  | .compare v, .compare =>
    some (if fits s.used (v.maxmemory.getD 0) then .out else .db { v with j := v.j + 1 }, s.dbs)
  | _, _ => none

def step (j : ℕ) (s : State V) : Act V → Option (State V)
  | .conf a =>
    if (worker? a).all fun w => isOut (s.phase w) then
      (Conf.step j s.sys a).map fun sys =>
        match setsLimit j s.sys a with
        | none => { s with sys }
        | some w => { s with sys }.goto w .set
    else none
  | .free w a => (callStep s w (s.phase w) a).map fun r => { s with dbs := r.2 }.goto w r.1
  | .other i c => (c.run s.now (s.dbs i)).map fun db => { s with dbs := Function.update s.dbs i db }
  | .alloc used => some { s with used }
  | .tick ms => some { s with now := s.now + ms }

end Vire.Evict
