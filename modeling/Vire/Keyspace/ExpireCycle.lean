import Vire.Keyspace.Expire

/-!
# The active expire cycle

`activeExpireCycle` of the backend: `msec n` is the answer of the `n`-th call of `vr_msec_now`, and
so on.  The inner loop has no bound of its own: a function returns `none` if the rounds it is given
for a database are not enough, or if it asks for a lock that is held already.
-/

namespace Vire.ExpireCycle

variable {V : Type}

def lookupsPerLoop : ℕ := 20
def fastDuration : ℤ := 1000
def slowTimePerc : ℤ := 25
def cronDbsPerCall : ℕ := 16
def hz : ℤ := 10
def dictHtInitialSize : ℕ := 4

inductive CycleType
  | slow
  | fast
  deriving DecidableEq

/-- The fields of the backend that last from one call to the next. -/
structure Backend where
  /-- An `unsigned int`. -/
  currentDb : ℕ
  timelimitExit : Bool
  lastFastCycle : ℤ
  expiredkeys : ℤ

structure World where
  /-- `vr_usec_now` at the start of the call, and later. -/
  start : ℤ
  usec : ℕ → ℤ
  msec : ℕ → ℤ
  random : ℕ → ℕ

/-- The databases, the locks that are held, the backend, and the variables of the call.  The last
three fields count the calls of the clocks and of `dictGetRandomKey`. -/
structure State (V : Type) where
  dbs : ℕ → Db V
  avgTtl : ℕ → ℤ
  locked : List ℕ
  backend : Backend
  timelimit : ℤ
  iteration : ℕ
  expiredTotal : ℕ
  msecs : ℕ
  usecs : ℕ
  draws : ℕ

structure Samples (V : Type) where
  db : Db V
  draws : ℕ
  expired : ℕ
  ttlSum : ℤ
  ttlSamples : ℕ

variable [HashFn]

def sampleLoop (random : ℕ → ℕ) (now : ℤ) : ℕ → Samples V → Samples V
  | 0, s => s
  | num + 1, s =>
    let r := dictGetRandomKey s.db.expires (random s.draws)
    let db := { s.db with expires := r.2 }
    match r.1 with
    | none => { s with db := db, draws := s.draws + 1 }
    | some de =>
      let ttl := wrap (de.2 - now)
      let r := activeExpireCycleTryExpire db de now
      sampleLoop random now num
        { db := r.1, draws := s.draws + 1, expired := s.expired + r.2.toNat
          ttlSum := if 0 < ttl then wrap (s.ttlSum + ttl) else s.ttlSum
          ttlSamples := if 0 < ttl then s.ttlSamples + 1 else s.ttlSamples }

/-- The running average of `db->avg_ttl`. -/
def updateAvgTtl (old ttlSum : ℤ) (ttlSamples : ℕ) : ℤ :=
  if ttlSamples = 0 then old
  else
    let avg := ttlSum.tdiv ttlSamples
    let old := if old = 0 then avg else old
    wrap (old.tdiv 50 * 49 + avg.tdiv 50)

def lockDbWrite (i : ℕ) (s : State V) : Option (State V) :=
  if i ∈ s.locked then none else some { s with locked := i :: s.locked }

def unlockDb (i : ℕ) (s : State V) : State V := { s with locked := s.locked.erase i }

def updateStats (s : State V) : State V :=
  if 0 < s.expiredTotal then
    { s with backend := { s.backend with expiredkeys := s.backend.expiredkeys + s.expiredTotal } }
  else s

inductive RoundEnd
  /-- The next database is due. -/
  | leave
  | again
  /-- The time is up. -/
  | return
  deriving DecidableEq

/-- Look at the clock once every 16 rounds. -/
def checkTime (w : World) (s : State V) : State V :=
  if s.iteration % 16 = 0 then
    { s with
      usecs := s.usecs + 1
      backend := { s.backend with
        timelimitExit :=
          s.backend.timelimitExit || s.timelimit < wrap (w.usec s.usecs - w.start) } }
  else s

/-- The samples of a round, in a state in which `now` has been read. -/
def sampleRound (w : World) (i : ℕ) (now : ℤ) (s : State V) : RoundEnd × State V :=
  let db := s.dbs i
  let r := sampleLoop w.random now (min db.expires.size lookupsPerLoop) ⟨db, s.draws, 0, 0, 0⟩
  let s := checkTime w
    { s with
      dbs := Function.update s.dbs i r.db, draws := r.draws
      expiredTotal := s.expiredTotal + r.expired
      avgTtl := Function.update s.avgTtl i (updateAvgTtl (s.avgTtl i) r.ttlSum r.ttlSamples)
      iteration := s.iteration + 1 }
  if s.backend.timelimitExit then (.return, s)
  else (if lookupsPerLoop / 4 < r.expired then .again else .leave, s)

def expireRound (w : World) (i : ℕ) (s : State V) : RoundEnd × State V :=
  let num := (s.dbs i).expires.size
  if num = 0 then (.leave, { s with avgTtl := Function.update s.avgTtl i 0 })
  else
    let slots := (s.dbs i).expires.ht0.size + (s.dbs i).expires.ht1.size
    let now := w.msec s.msecs
    let s := { s with msecs := s.msecs + 1 }
    if dictHtInitialSize < slots ∧ num * 100 % 2 ^ 64 / slots < 1 then (.leave, s)
    else sampleRound w i now s

def expireLoop (w : World) (i : ℕ) : ℕ → State V → Option (Bool × State V)
  | 0, _ => none
  | rounds + 1, s =>
    match expireRound w i s with
    | (.leave, s) => some (false, s)
    | (.again, s) => expireLoop w i rounds s
    | (.return, s) => some (true, s)

def dbLoop (dbnum : ℕ) (w : World) (rounds : ℕ) : ℕ → State V → Option (State V)
  | 0, s => some (updateStats s)
  | n + 1, s =>
    let i := s.backend.currentDb % dbnum
    let s := { s with
      backend := { s.backend with currentDb := (s.backend.currentDb + 1) % 2 ^ 32 } }
    (lockDbWrite i s).bind fun s =>
      (expireLoop w i rounds s).bind fun r =>
        let s := unlockDb i r.2
        if r.1 then some (updateStats s) else dbLoop dbnum w rounds n s

def enter (dbs : ℕ → Db V) (avgTtl : ℕ → ℤ) (locked : List ℕ) (backend : Backend) : State V :=
  { dbs, avgTtl, locked, backend, timelimit := 0, iteration := 0, expiredTotal := 0, msecs := 0
    usecs := 0, draws := 0 }

def cycle (type : CycleType) (dbnum : ℕ) (w : World) (rounds : ℕ) (s : State V) :
    Option (State V) :=
  let dbsPerCall :=
    if dbnum < cronDbsPerCall ∨ s.backend.timelimitExit then dbnum else cronDbsPerCall
  let timelimit := (1000000 * slowTimePerc).tdiv hz |>.tdiv 100
  let timelimit := if timelimit ≤ 0 then 1 else timelimit
  dbLoop dbnum w rounds dbsPerCall
    { s with
      timelimit := if type = .fast then fastDuration else timelimit
      backend := { s.backend with timelimitExit := false } }

def activeExpireCycle (type : CycleType) (dbnum : ℕ) (w : World) (rounds : ℕ) (dbs : ℕ → Db V)
    (avgTtl : ℕ → ℤ) (locked : List ℕ) (backend : Backend) : Option (State V) :=
  let s := enter dbs avgTtl locked backend
  match type with
  | .slow => cycle .slow dbnum w rounds s
  | .fast =>
    -- the last call was not cut short, or the last fast cycle is not long ago
    if !backend.timelimitExit then some s
    else if w.start < wrap (backend.lastFastCycle + fastDuration * 2) then some s
    else
      cycle .fast dbnum w rounds { s with backend := { s.backend with lastFastCycle := w.start } }

end Vire.ExpireCycle
