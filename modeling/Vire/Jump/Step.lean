import Vire.Jump.Command

/-!
# The threads

A step is one action of one thread up to its next access to a queue or a socket pair: between two
such accesses a worker only touches clients it owns.  The label carries what the environment
decides: the bytes that arrive, and what succeeds.
-/

namespace Vire.Jump

inductive NewConn
  | failed
  | created (peerid : Sds)
deriving DecidableEq, Repr

inductive Input
  | closed
  | data (rs : List Request)
deriving DecidableEq, Repr

inductive Act
  /-- `client_accept`, up to the push of the new unit -/
  | accept (sd : ℤ) (alloc : Bool)
  /-- the master writes the byte that follows a push -/
  | masterWrite (ok : Bool)
  | masterRead (w : ℕ) (ok : Bool)
  | masterPop
  | masterPush
  | read (i : ℕ) (ok : Bool)
  /-- the pop and all that follows until the client is handed on or linked -/
  | pop (i : ℕ) (conn : NewConn) (ae : Bool)
  /-- `dispatch_conn_exist`, up to its push -/
  | dispatch (i : ℕ) (alloc : Bool)
  /-- the read of `c->curidx`; `junk` is what a freed client yields -/
  | readCuridx (i : ℕ) (junk : ℤ)
  | write (i : ℕ) (ok : Bool)
  | readQuery (i : ℕ) (c : Cid) (inp : Input)
  /-- one turn of the loop of `processInputBuffer`, or its end -/
  | input (i : ℕ) (ae : Bool)
  | sendReply (i : ℕ) (c : Cid) (res : WriteResult)
  | beforeSleep (i : ℕ) (res : Cid → WriteResult) (ae : Cid → Bool)
  | cron (i : ℕ)

def dispatchConnNew (n : ℕ) (s : Sys) (sd : ℤ) : Sys :=
  let tid := ((s.lastWorkerThread + 1) % n).toNat
  { s with
    lastWorkerThread := tid
    csul := Function.update s.csul tid (s.csul tid ++ [⟨sd, .listen⟩])
    master := .notify tid .c }

def masterWrite (s : Sys) (w : ℕ) (tag : Tag) (ok : Bool) : Sys :=
  { s with
    toWorker := if ok then Function.update s.toWorker w (s.toWorker w ++ [tag]) else s.toWorker
    master := .idle }

/-- The pop of `thread_event_process` of the master, which read `tag` from worker `w`. -/
def masterPop (s : Sys) (w : ℕ) (tag : Tag) : Sys :=
  match tag, s.cbsul with
  | .b, su :: rest => { s with cbsul := rest, master := .hold su.num { su with num := w } }
  | _, _ => { s with master := .idle }

def masterPush (n : ℕ) (s : Sys) (idx : ℤ) (su : ConnSwapUnit) : Sys :=
  match workerAt n idx with
  | none => { s with master := .dead }
  | some w =>
    { s with
      csul := Function.update s.csul w (s.csul w ++ [su])
      master := .notify w .j }

def linkClientToEventloop (s : Sys) (i : ℕ) (c : Cid) (ae : Bool) : Sys :=
  let s := (s.setLoop i fun l => { l with clients := l.clients ++ [c] }).setClient c fun k =>
    { k with vel := some i }
  if ae then s.setWorker i (.input c true) else (freeClient s i c).setWorker i .idle

/-- The `'j'` case of `thread_event_process` after the pop. -/
def arrive (n : ℕ) (s : Sys) (i : ℕ) (c : Cid) (ae : Bool) : Sys :=
  let s := s.setClient c fun k => { k with vel := some i, curidx := i, steps := k.steps + 1 }
  let s := proc n s i c
  match s.client c with
  | none => s.setWorker i .dead
  | some k => if k.jump then s.setWorker i (.dispatch c) else linkClientToEventloop s i c ae

/-- The pop of `thread_event_process` of worker `i`, which read `tag`, and what follows.  A unit
that is taken for one of the other kind is undefined behaviour. -/
def workerPop (n : ℕ) (s : Sys) (i : ℕ) (tag : Tag) (conn : NewConn) (ae : Bool) : Sys :=
  match tag, s.csul i with
  | .b, _ => s.setWorker i .idle
  | _, [] => s.setWorker i .idle
  | tag, su :: rest =>
    let s := { s with csul := Function.update s.csul i rest }
    match tag, su.data, conn with
    | .c, .listen, .failed => s.setWorker i .idle
    | .c, .listen, .created peerid => (createClient s i su.num peerid).setWorker i .idle
    | .j, .client c, _ => arrive n s i c ae
    | _, _, _ => s.setWorker i .dead

/-- `dispatch_conn_exist`, up to its push.  Without memory the client is freed, which is undefined
for a client that is in no event loop. -/
def dispatchConnExist (s : Sys) (i : ℕ) (c : Cid) (alloc : Bool) : Sys :=
  match s.client c with
  | none => s.setWorker i .dead
  | some k =>
    if alloc then
      let s := unlinkClientFromEventloop s i c
      { s.setWorker i (.pushed c) with cbsul := s.cbsul ++ [⟨k.taridx, .client c⟩] }
    else if k.steps = 0 then (freeClient s i c).setWorker i .idle
    else s.setWorker i .dead

/-- The write of `'b'` to the socket pair of the worker at `idx`. -/
def workerWrite (n : ℕ) (s : Sys) (i : ℕ) (idx : ℤ) (ok : Bool) : Sys :=
  match ok, workerAt n idx with
  | true, some w =>
    { s.setWorker i .idle with toMaster := Function.update s.toMaster w (s.toMaster w ++ [.b]) }
  | _, _ => s.setWorker i .idle

def afterInput (s : Sys) (i : ℕ) (c : Cid) (k : Client) (linked ae : Bool) : Sys :=
  if k.jump then s.setWorker i (.dispatch c)
  else if linked && clientHasPendingReplies k && !k.pendingWrite && !ae then
    (freeClientAsync s i c).setWorker i .idle
  else s.setWorker i .idle

/-- One turn of the loop of `processInputBuffer`, or its end. -/
def processInput (n : ℕ) (s : Sys) (i : ℕ) (c : Cid) (linked ae : Bool) : Sys :=
  match s.client c with
  | none => s.setWorker i .dead
  | some k =>
    match k.querybuf, k.closeAfterReply with
    | r :: _, false =>
      let s := processCommand n s i c r
      match s.client c with
      | none => s.setWorker i .dead
      | some k => if k.jump then afterInput s i c k linked ae else s
    | _, _ => afterInput s i c k linked ae

def readQueryFromClient (s : Sys) (i : ℕ) (c : Cid) : Input → Sys
  | .closed => freeClient s i c
  | .data rs =>
    (s.setClient c fun k => { k with querybuf := k.querybuf ++ rs }).setWorker i (.input c false)

/-- The step `a`, if the thread it belongs to can take it. -/
def step (n : ℕ) (s : Sys) : Act → Option Sys
  | .accept sd alloc =>
    match s.master with
    | .idle => if 0 < sd then some (if alloc then dispatchConnNew n s sd else s) else none
    | _ => none
  | .masterWrite ok =>
    match s.master with
    | .notify w tag => some (masterWrite s w tag ok)
    | _ => none
  | .masterRead w ok =>
    match s.master, s.toMaster w, ok with
    | .idle, tag :: rest, true =>
      some { s with toMaster := Function.update s.toMaster w rest, master := .gotByte w tag true }
    | .idle, _, false => if w < n then some { s with master := .gotByte w .b false } else none
    | _, _, _ => none
  | .masterPop =>
    match s.master with
    | .gotByte w tag _ => some (masterPop s w tag)
    | _ => none
  | .masterPush =>
    match s.master with
    | .hold idx su => some (masterPush n s idx su)
    | _ => none
  | .read i ok =>
    match s.worker i, s.toWorker i, ok with
    | .idle, tag :: rest, true =>
      some { s.setWorker i (.gotByte tag true) with toWorker := Function.update s.toWorker i rest }
    | .idle, _, false => if i < n then some (s.setWorker i (.gotByte .c false)) else none
    | _, _, _ => none
  | .pop i conn ae =>
    match s.worker i with
    | .gotByte tag _ => some (workerPop n s i tag conn ae)
    | _ => none
  | .dispatch i alloc =>
    match s.worker i with
    | .dispatch c => some (dispatchConnExist s i c alloc)
    | _ => none
  | .readCuridx i junk =>
    match s.worker i with
    | .pushed c => some (s.setWorker i (.notify (((s.client c).map Client.curidx).getD junk)))
    | _ => none
  | .write i ok =>
    match s.worker i with
    | .notify idx => some (workerWrite n s i idx ok)
    | _ => none
  | .readQuery i c inp =>
    if s.worker i = .idle ∧ c ∈ (s.loop i).clients then some (readQueryFromClient s i c inp)
    else none
  | .input i ae =>
    match s.worker i with
    | .input c linked => some (processInput n s i c linked ae)
    | _ => none
  | .sendReply i c res =>
    if s.worker i = .idle ∧ c ∈ (s.loop i).clients then some (writeToClient s i c res).1
    else none
  | .beforeSleep i res ae =>
    if i < n ∧ s.worker i = .idle then some (handleClientsWithPendingWrites s i res ae) else none
  | .cron i =>
    if i < n ∧ s.worker i = .idle then some (freeClientsInAsyncFreeQueue s i) else none

end Vire.Jump
