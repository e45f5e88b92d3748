import Vire.Keyspace.Handler.String
import Vire.Keyspace.Type.Hll

/-!
# HyperLogLog commands

PFADD and PFCOUNT of `vr_hyperloglog.c`.
-/

namespace Vire.Handler

open Logic Prog

variable [Host]

def invalidHllErr : Reply := .error (ascii "-INVALIDOBJ Corrupted HLL object detected".toList)

def notHllErr : Reply :=
  .error (ascii "-WRONGTYPE Key is not a valid HyperLogLog string value.".toList)

/-- `isHLLObjectOrReply`, and `unlockDb` if it has replied. -/
def withHLLObject (v : Value) (k : Robj → Cmd Unit) : Cmd Unit :=
  withSome v.str? (do addReply wrongtypeerr; unlockDb) fun o => do
    if ← orHalt (isHLLObject o) then k o
    else
      addReply notHllErr
      unlockDb

def pfaddLoop (key : Sds) : List Sds → Robj → ℕ → Cmd (Option (ℕ × Robj))
  | [], o, updated => pure (some (updated, o))
  | ele :: eles, o, updated => do
    match ← orHalt (hllAdd (text o) ele) with
    | .invalid => pure none
    | .kept => pfaddLoop key eles o updated
    | .grown s =>
      let o ← setString key o s
      pfaddLoop key eles o (updated + 1)

def pfaddCommand : Cmd Unit :=
  lockKey .write fun key => do
    withSome (← lookupKeyWrite key)
      (do
        let v ← dbAdd key (rawValue hllNew)
        add key (strOf v) 1)
      fun v => withHLLObject v fun o => do
        let o ← dbUnshareStringValue key o
        add key o 0
where
  add (key : Sds) (o : Robj) (updated : ℕ) : Cmd Unit := do
    let eles := (← args 2).map text
    withSome (← pfaddLoop key eles o updated) (do unlockDb; addReply invalidHllErr) fun r => do
      if 0 < r.1 then let _ ← setString key r.2 (hllInvalidateCache (text r.2))
      addReply (if 0 < r.1 then cone else czero)
      unlockDb

def pfcountCommand : Cmd Unit := do
  if 2 < (← argc) then union ((← args 1).map text) (List.replicate hllRegisters 0)
  else
    lockKey .write fun key => do
      withSome (← lookupKeyWrite key) (do addReply czero; unlockDb) fun v =>
        withHLLObject v fun o => do
          let o ← dbUnshareStringValue key o
          count key o
where
  count (key : Sds) (o : Robj) : Cmd Unit :=
    if hllValidCache (text o) then do
      addReply (.int (wrap (hllCard (text o))))
      unlockDb
    else do
      withSome (← orHalt (hllCount (text o))) (do unlockDb; addReply invalidHllErr) fun card => do
        let _ ← setString key o (hllSetCard (text o) card)
        addReply (.int (wrap card.toNat))
        unlockDb
  union : List Sds → List ℕ → Cmd Unit
    | [], regs => addReply (.int (wrap (Host.hllEstimateRaw regs).toNat))
    | key :: keys, regs => do
      fetchInternalDbByKey key
      lockDbRead
      withSome (← lookupKeyRead key) (do unlockDb; union keys regs) fun v =>
        withHLLObject v fun o => do
          withSome (← orHalt (hllMerge regs (text o))) (do unlockDb; addReply invalidHllErr)
            fun regs => do
            unlockDb
            union keys regs

end Vire.Handler
