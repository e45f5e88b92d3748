import Vire.Keyspace.Handler.Set

/-!
# Commands on several sets

SINTER, SUNION and SDIFF, which store their result with a destination key, and SPOP with a count.
The first three lock one key at a time: between two looks other clients may change the keys.
-/

namespace Vire

def Elem.object : Elem → Heap → Robj × Heap
  | num i, h => createStringObjectFromLongLong i h
  | obj o, h => (o, h)

def Elem.release : Elem → Robj → Heap → Heap
  | num _, o, h => h.free o
  | obj _, _, h => h

variable [Host]

/-- All elements are added to a set, and `cardinality`, an `int`, counts those that are new. -/
def addElems : List Elem → SetVal → ℤ → Heap → Option ((SetVal × ℤ) × Heap)
  | [], dst, cardinality, h => some ((dst, cardinality), h)
  | e :: es, dst, cardinality, h =>
    let ele := e.object h
    (setTypeAdd dst ele.1 ele.2).bind fun r =>
      addElems es r.2.1 (if r.1 then int32 (cardinality + 1) else cardinality)
        (e.release ele.1 r.2.2)

def removeElems : List Elem → SetVal → ℤ → Heap → (SetVal × ℤ) × Heap
  | [], dst, cardinality, h => ((dst, cardinality), h)
  | e :: es, dst, cardinality, h =>
    let ele := e.object h
    let r := setTypeRemove dst ele.1 ele.2
    removeElems es r.2.1 (if r.1 then int32 (cardinality - 1) else cardinality)
      (e.release ele.1 r.2.2)

/-- The test of `sinterGenericCommand`, with its fast paths for integers. -/
def sinterTest (setobj : SetVal) (e : Elem) (h : Heap) : Bool × Heap :=
  match e, setobj with
  | .num i, .intset is => (intsetFind is i, h)
  | .num i, .ht _ =>
    let ele := createStringObjectFromLongLong i h
    (setTypeIsMember setobj ele.1, ele.2.free ele.1)
  | .obj o, .intset is =>
    match o.enc with
    | .int i => (if intsetFind is i then setTypeIsMember setobj o else false, h)
    | _ => (setTypeIsMember setobj o, h)
  | .obj o, .ht _ => (setTypeIsMember setobj o, h)

namespace Handler

open Logic Prog

/-- What a handler does in memory of its own; `none` where an assertion fails. -/
def build {α : Type} (f : Heap → Option (α × Heap)) : Cmd α := do
  let r ← inMemory fun h =>
    match f h with
    | none => (none, h)
    | some r => (some r.1, r.2)
  orHalt r

def freeSet (set : SetVal) : Cmd Unit := inMemory fun h => ((), h.freeAll set.objs)

/-- What a look at a key leads to.  A value of the wrong type is answered. -/
inductive Found (α : Type)
  | missing
  | wrongtype
  | found (a : α)

/-- `fetchInternalDbByKey`, `lockDbRead`, `lookupKeyRead` and `checkType`.  The lock is kept. -/
def fetchSet (key : Sds) : Cmd (Found SetVal) := do
  fetchInternalDbByKey key
  lockDbRead
  match ← lookupKeyRead key with
  | none => pure .missing
  | some v =>
    match v.set? with
    | none => do
      addReply wrongtypeerr
      pure .wrongtype
    | some set => pure (.found set)

/-- A copy of the set at the key, so that it can be iterated without the lock. -/
def copySet (key : Sds) : Cmd (Found SetVal) := do
  match ← fetchSet key with
  | .missing => do unlockDb; pure .missing
  | .wrongtype => do unlockDb; pure .wrongtype
  | .found set => do
    let copy ← build (addElems (setTypeElems set) createIntsetObject 0)
    unlockDb
    pure (.found copy.1)

/-- The first loop of `sinterGenericCommand` finds the smallest set; `none` stands for the `min_len`
of -1. -/
def sinterSizes : List Sds → ℕ → Option ℕ → ℕ → Cmd (Found ℕ)
  | [], _, _, min_len_idx => pure (.found min_len_idx)
  | key :: keys, j, min_len, min_len_idx => do
    match ← fetchSet key with
    | .missing => do unlockDb; pure .missing
    | .wrongtype => do unlockDb; pure .wrongtype
    | .found set => do
      unlockDb
      if min_len.all fun len => setTypeSize set < len then
        sinterSizes keys (j + 1) (some (setTypeSize set)) j
      else sinterSizes keys (j + 1) min_len min_len_idx

/-- An element is looked for in all other sets, up to one without it. -/
def sinterCheck (e : Elem) : List Sds → Cmd (Found Bool)
  | [] => pure (.found true)
  | key :: keys => do
    match ← fetchSet key with
    | .missing => do unlockDb; pure .missing
    | .wrongtype => do unlockDb; pure .wrongtype
    | .found setobj => do
      let member ← inMemory (sinterTest setobj e)
      unlockDb
      if member then sinterCheck e keys else pure (.found false)

/-- The loop over the elements of the smallest set.  `none`: an error was sent.  Else `dstset`,
which is `NULL` when a key is gone, and `cardinality`. -/
def sinterMembers (others : List Sds) : List Elem → SetVal → ℕ → Cmd (Option (Option SetVal × ℕ))
  | [], dstset, cardinality => pure (some (some dstset, cardinality))
  | e :: es, dstset, cardinality => do
    match ← sinterCheck e others with
    | .missing => do
      freeSet dstset
      pure (some (none, cardinality))
    | .wrongtype => do
      freeSet dstset
      pure none
    | .found false => sinterMembers others es dstset cardinality
    | .found true => do
      let r ← build (addElems [e] dstset 0)
      sinterMembers others es r.1 (cardinality + 1)

/-- The destination is set to the result, or deleted if that is empty. -/
def storeSet (dstkey : Sds) (dstset : Option SetVal) : Cmd Unit := do
  fetchInternalDbByKey dstkey
  lockDbWrite
  let _ ← dbDelete dstkey
  store dstset
  unlockDb
where
  store : Option SetVal → Cmd Unit
    | none => addReply czero
    | some set =>
      if 0 < setTypeSize set then do
        let _ ← dbAdd dstkey fun h => (.set set, h)
        addReply (.int (setTypeSize set))
      else do
        freeSet set
        addReply czero

/-- What comes after the label `done`. -/
def sinterDone (dstkey : Option Sds) (dstset : Option SetVal) (cardinality : ℕ) : Cmd Unit :=
  match dstkey with
  | some dstkey => storeSet dstkey dstset
  | none => do
    addReply (.multi cardinality)
    match dstset with
    | none => pure ()
    | some set => do
      addReplies ((setTypeElems set).map fun e => .bulk e.text)
      freeSet set

def sinterGenericCommand (setkeys : List Sds) (dstkey : Option Sds) : Cmd Unit := do
  match ← sinterSizes setkeys 0 none 0 with
  | .missing => missing dstkey
  | .wrongtype => pure ()
  | .found min_len_idx => do
    match ← copySet (setkeys.getD min_len_idx []) with
    | .missing => sinterDone dstkey none 0
    | .wrongtype => pure ()
    | .found min_len_set => do
      let r ← sinterMembers (setkeys.eraseIdx min_len_idx) (setTypeElems min_len_set)
        createIntsetObject 0
      freeSet min_len_set
      match r with
      | none => pure ()
      | some r => sinterDone dstkey r.1 r.2
where
  /-- A key is missing at the first look. -/
  missing : Option Sds → Cmd Unit
    | none => addReply emptymultibulk
    | some dstkey => do
      fetchInternalDbByKey dstkey
      lockDbWrite
      let _ ← dbDelete dstkey
      unlockDb
      addReply czero

def sinterCommand : Cmd Unit := do
  sinterGenericCommand ((← args 1).map text) none

def sinterstoreCommand : Cmd Unit := do
  sinterGenericCommand ((← args 2).map text) (some (text (← arg 1)))

inductive SetOp
  | union
  | diff
  deriving DecidableEq

/-- `first_length`, `algo_one_work` and `algo_two_work` -/
structure DiffWork where
  first : ℤ
  one : ℤ
  two : ℤ

/-- A set of this size is the `j`-th key. -/
def DiffWork.count (w : DiffWork) (j size : ℕ) : DiffWork :=
  let first := if j = 0 then (size : ℤ) else w.first
  ⟨first, wrap (w.one + first), wrap (w.two + size)⟩

def DiffWork.algoOne (w : DiffWork) : Bool := w.one.tdiv 2 ≤ w.two

/-- The first loop of `sunionDiffGenericCommand`; `none` if a key holds another type. -/
def sunionDiffSizes (op : SetOp) : List Sds → ℕ → DiffWork → Cmd (Option DiffWork)
  | [], _, work => pure (some work)
  | key :: keys, j, work => do
    match ← fetchSet key with
    | .missing => do unlockDb; sunionDiffSizes op keys (j + 1) work
    | .wrongtype => do unlockDb; pure none
    | .found set => do
      unlockDb
      sunionDiffSizes op keys (j + 1) (if op = .diff then work.count j (setTypeSize set) else work)

def unionLoop : List Sds → SetVal → ℤ → Cmd (Option (SetVal × ℤ))
  | [], dstset, cardinality => pure (some (dstset, cardinality))
  | key :: keys, dstset, cardinality => do
    match ← fetchSet key with
    | .missing => do unlockDb; unionLoop keys dstset cardinality
    | .wrongtype => do
      unlockDb
      freeSet dstset
      pure none
    | .found set => do
      let r ← build (addElems (setTypeElems set) dstset cardinality)
      unlockDb
      unionLoop keys r.1 r.2

/-- Whether one of the other sets has the element; a key that is missing has not. -/
def diffCheck (ele : Robj) : List Sds → Cmd (Option Bool)
  | [] => pure (some false)
  | key :: keys => do
    match ← fetchSet key with
    | .missing => do unlockDb; diffCheck ele keys
    | .wrongtype => do unlockDb; pure none
    | .found setobj => do
      unlockDb
      if setTypeIsMember setobj ele then pure (some true) else diffCheck ele keys

def diffMembers (others : List Sds) : List Elem → SetVal → ℤ → Cmd (Option (SetVal × ℤ))
  | [], dstset, cardinality => pure (some (dstset, cardinality))
  | e :: es, dstset, cardinality => do
    let ele ← inMemory e.object
    match ← diffCheck ele others with
    | none => do
      freeSet dstset
      release e ele
      pure none
    | some true => do
      release e ele
      diffMembers others es dstset cardinality
    | some false => do
      let dstset ← build fun h => (setTypeAdd dstset ele h).map Prod.snd
      release e ele
      diffMembers others es dstset (int32 (cardinality + 1))
where
  release (e : Elem) (ele : Robj) : Cmd Unit := inMemory fun h => ((), e.release ele h)

def diffAlgoOne (setkeys : List Sds) : Cmd (Option (SetVal × ℤ)) := do
  match ← copySet (setkeys.getD 0 []) with
  | .missing => pure (some (createIntsetObject, 0))
  | .wrongtype => pure none
  | .found first_set => do
    let r ← diffMembers (setkeys.drop 1) (setTypeElems first_set) createIntsetObject 0
    freeSet first_set
    pure r

/-- The loop of algorithm 2.  Every turn looks at the key `setkeys[0]`, whose elements the first
turn adds and every later one removes. -/
def diffAlgoTwo (key : Sds) : ℕ → Bool → SetVal → ℤ → Cmd (Option (SetVal × ℤ))
  | 0, _, dstset, cardinality => pure (some (dstset, cardinality))
  | turns + 1, first, dstset, cardinality => do
    match ← fetchSet key with
    | .missing => do
      unlockDb
      if first then pure (some (dstset, cardinality))
        else diffAlgoTwo key turns false dstset cardinality
    | .wrongtype => do
      unlockDb
      freeSet dstset
      pure none
    | .found set => do
      let r ← build fun h =>
        if first then addElems (setTypeElems set) dstset cardinality h
        else some (removeElems (setTypeElems set) dstset cardinality h)
      unlockDb
      if r.2 = 0 then pure (some r) else diffAlgoTwo key turns false r.1 r.2

def sunionDiffDone (dstkey : Option Sds) (dstset : SetVal) (cardinality : ℤ) : Cmd Unit :=
  match dstkey with
  | some dstkey => storeSet dstkey (some dstset)
  | none => do
    addReply (.multi cardinality)
    addReplies ((setTypeElems dstset).map fun e => .bulk e.text)
    freeSet dstset

def sunionDiffGenericCommand (op : SetOp) (setkeys : List Sds) (dstkey : Option Sds) :
    Cmd Unit := do
  match ← sunionDiffSizes op setkeys 0 ⟨0, 0, 0⟩ with
  | none => pure ()
  | some work => do
    match ← result work with
    | none => pure ()
    | some r => sunionDiffDone dstkey r.1 r.2
where
  result (work : DiffWork) : Cmd (Option (SetVal × ℤ)) :=
    match op with
    | .union => unionLoop setkeys createIntsetObject 0
    | .diff =>
      if work.algoOne then diffAlgoOne setkeys
      else diffAlgoTwo (setkeys.getD 0 []) setkeys.length true createIntsetObject 0

def sunionCommand : Cmd Unit := do
  sunionDiffGenericCommand .union ((← args 1).map text) none

def sunionstoreCommand : Cmd Unit := do
  sunionDiffGenericCommand .union ((← args 2).map text) (some (text (← arg 1)))

def sdiffCommand : Cmd Unit := do
  sunionDiffGenericCommand .diff ((← args 1).map text) none

def sdiffstoreCommand : Cmd Unit := do
  sunionDiffGenericCommand .diff ((← args 2).map text) (some (text (← arg 1)))

end Handler

end Vire
