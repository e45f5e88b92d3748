import Vire.Jump.Client

/-!
# What a worker does to the clients it owns

The functions of `vr_client.c` and `vr_command.c` that a worker runs on clients of its own event
loop.  The index `i` is the worker whose event loop `c->vel` points to.
-/

namespace Vire.Jump

def workerGetNextIdx (n : ℕ) (curidx : ℤ) : ℤ :=
  if curidx + 1 ≥ n then 0 else curidx + 1

/-- `darray_get(&workers, idx)`.  It checks no bounds: outside of them there is no worker. -/
def workerAt (n : ℕ) (idx : ℤ) : Option ℕ :=
  if 0 ≤ idx ∧ idx < n then some idx.toNat else none

def clientHasPendingReplies (k : Client) : Bool := !k.reply.isEmpty

/-- `prepareClientToWrite`; the result says whether the caller may queue data. -/
def prepareClientToWrite (s : Sys) (i : ℕ) (c : Cid) : Sys × Bool :=
  match s.client c with
  | none => (s, false)
  | some k =>
    if k.sd ≤ 0 then (s, false)
    else if !clientHasPendingReplies k && !k.pendingWrite then
      ((s.setClient c fun k => { k with pendingWrite := true }).setLoop i fun l =>
        { l with clientsPendingWrite := c :: l.clientsPendingWrite }, true)
    else (s, true)

/-- `addReply` and its siblings: nothing is queued after CLIENT_CLOSE_AFTER_REPLY. -/
def addReply (s : Sys) (i : ℕ) (c : Cid) (r : Reply) : Sys :=
  match prepareClientToWrite s i c with
  | (s, false) => s
  | (s, true) =>
    match s.client c with
    | none => s
    | some k =>
      if k.closeAfterReply then s
      else (s.setClient c fun k => { k with reply := k.reply ++ [r] }).log c [.reply r]

def newClient (id : ℕ) (i : ℕ) (sd : ℤ) (peerid : Sds) : Client :=
  { id := id, sd := sd, peerid := peerid, type := .normal, vel := some i, curidx := i,
    taridx := -1, steps := 0, jump := false, pendingWrite := false, unblocked := false,
    closeAsap := false, closeAfterReply := false, cache := .null, cmd := none, reply := [],
    querybuf := [] }

def createClient (s : Sys) (i : ℕ) (sd : ℤ) (peerid : Sds) : Sys :=
  { s.setLoop i fun l =>
      { l with
        clients := l.clients ++ [s.nextCid]
        nextClientId := (l.nextClientId + 1) % 2 ^ 64 } with
    client := Function.update s.client s.nextCid
      (some (newClient (s.loop i).nextClientId i sd peerid))
    nextCid := s.nextCid + 1 }

/-- `unlinkClientFromEventloop`: later steps of a jump find the client unlinked already.  The list
`clients_to_close` is not looked at. -/
def unlinkClientFromEventloop (s : Sys) (i : ℕ) (c : Cid) : Sys :=
  match s.client c with
  | none => s
  | some k =>
    if 1 ≤ k.steps then s.setClient c fun k => { k with vel := none }
    else
      (s.setClient c fun k =>
        { k with vel := none, pendingWrite := false, unblocked := false }).setLoop i fun l =>
        { l with
          clients := l.clients.erase c
          clientsPendingWrite :=
            if k.pendingWrite then l.clientsPendingWrite.erase c else l.clientsPendingWrite
          unblockedClients :=
            if k.unblocked then l.unblockedClients.erase c else l.unblockedClients }

def freeClient (s : Sys) (i : ℕ) (c : Cid) : Sys :=
  match s.client c with
  | none => s
  | some k =>
    { s.setLoop i fun l =>
        { l with
          clients := l.clients.erase c
          clientsPendingWrite :=
            if k.pendingWrite then l.clientsPendingWrite.erase c else l.clientsPendingWrite
          unblockedClients :=
            if k.unblocked then l.unblockedClients.erase c else l.unblockedClients
          clientsToClose :=
            if k.closeAsap then l.clientsToClose.erase c else l.clientsToClose } with
      client := Function.update s.client c none }

def freeClientAsync (s : Sys) (i : ℕ) (c : Cid) : Sys :=
  match s.client c with
  | none => s
  | some k =>
    if k.closeAsap then s
    else
      (s.setClient c fun k => { k with closeAsap := true }).setLoop i fun l =>
        { l with clientsToClose := l.clientsToClose ++ [c] }

def freeAsyncOne (i : ℕ) (s : Sys) (c : Cid) : Sys :=
  (freeClient (s.setClient c fun k => { k with closeAsap := false }) i c).setLoop i fun l =>
    { l with clientsToClose := l.clientsToClose.erase c }

def freeClientsInAsyncFreeQueue (s : Sys) (i : ℕ) : Sys :=
  (s.loop i).clientsToClose.foldl (freeAsyncOne i) s

/-- What the socket does with the replies `writeToClient` hands to it. -/
inductive WriteResult
  | error
  | sent (m : ℕ)
deriving DecidableEq, Repr

def unsent (reply : List Reply) : WriteResult → List Reply
  | .error => reply
  | .sent m => reply.drop m

/-- `writeToClient`; the result says whether the client is still valid. -/
def writeToClient (s : Sys) (i : ℕ) (c : Cid) (res : WriteResult) : Sys × Bool :=
  match s.client c with
  | none => (s, false)
  | some k =>
    match clientHasPendingReplies k, res with
    | true, .error => (freeClient s i c, false)
    | _, _ =>
      let rest := unsent k.reply res
      let s := s.setClient c fun k => { k with reply := rest }
      if rest.isEmpty && k.closeAfterReply then (freeClient s i c, false) else (s, true)

/-- One turn of the loop of `handleClientsWithPendingWrites`; `ok` is the outcome of
`aeCreateFileEvent`. -/
def handlePendingWrite (i : ℕ) (res : Cid → WriteResult) (ok : Cid → Bool) (s : Sys) (c : Cid) :
    Sys :=
  let s := (s.setClient c fun k => { k with pendingWrite := false }).setLoop i fun l =>
    { l with clientsPendingWrite := l.clientsPendingWrite.erase c }
  match writeToClient s i c (res c) with
  | (s, false) => s
  | (s, true) =>
    match s.client c with
    | none => s
    | some k => if clientHasPendingReplies k && !ok c then freeClientAsync s i c else s

def handleClientsWithPendingWrites (s : Sys) (i : ℕ) (res : Cid → WriteResult) (ok : Cid → Bool) :
    Sys :=
  (s.loop i).clientsPendingWrite.foldl (handlePendingWrite i res ok) s

/-- The letters `catClientInfoString` prints for the flags a client can have. -/
def flagLetters (k : Client) : List Char :=
  let p := (if k.closeAfterReply then ['c'] else []) ++ (if k.unblocked then ['u'] else []) ++
    (if k.closeAsap then ['A'] else [])
  if p.isEmpty then ['N'] else p

def catClientInfoString (c : Cid) (k : Client) : ClientInfo :=
  { who := c, oid := k.curidx, id := k.id, addr := k.peerid, fd := k.sd, flags := flagLetters k }

def getAllClientsInfoString (s : Sys) (i : ℕ) : List ClientInfo :=
  (s.loop i).clients.filterMap fun x => (s.client x).map (catClientInfoString x)

/-- The history entries of one step: the first step is also the issue of the command. -/
def stepEvents (i : ℕ) (k : Client) (r : Request) : List Event :=
  (if k.steps = 0 then [.issue i r] else []) ++ [.run i]

/-- The fields written when the command goes on to the next worker. -/
def jumpOn (n : ℕ) (cache : Cache) (k : Client) : Client :=
  { k with jump := true, taridx := workerGetNextIdx n k.curidx, cache := cache }

/-- The fields written when the command has visited all workers. -/
def jumpDone (k : Client) : Client :=
  { k with steps := 0, taridx := -1, cache := .null, jump := false }

def cachedLines (k : Client) : List ClientInfo :=
  match k.cache with
  | .list str => str
  | _ => []

def clientList (n : ℕ) (s : Sys) (i : ℕ) (c : Cid) (k : Client) (r : Request) : Sys :=
  let s := s.log c (stepEvents i k r)
  let str := cachedLines k ++ getAllClientsInfoString s i
  if k.steps ≥ n - 1 then (addReply s i c (.clientList str)).setClient c jumpDone
  else s.setClient c (jumpOn n (.list str))

def getClientTypeByName (name : Sds) : Option ClientType :=
  if strcaseEq name ['n', 'o', 'r', 'm', 'a', 'l'] then some .normal
  else if strcaseEq name ['s', 'l', 'a', 'v', 'e'] then some .slave
  else if strcaseEq name ['p', 'u', 'b', 's', 'u', 'b'] then some .pubsub
  else if strcaseEq name ['m', 'a', 's', 't', 'e', 'r'] then some .master
  else none

def parseKillOptions (ckd : ClientKillData) : List Sds → Except ErrMsg ClientKillData
  | [] => .ok ckd
  | [_] => .error .syntaxErr
  | opt :: val :: rest =>
    if strcaseEq opt ['i', 'd'] then
      match getLongLong val with
      | none => .error .notInteger
      | some tmp => parseKillOptions { ckd with id := (tmp % 2 ^ 64).toNat } rest
    else if strcaseEq opt ['t', 'y', 'p', 'e'] then
      match getClientTypeByName val with
      | none => .error (.unknownClientType (cstr val))
      | some t => parseKillOptions { ckd with type := some t } rest
    else if strcaseEq opt ['a', 'd', 'd', 'r'] then
      parseKillOptions { ckd with addr := some (cstr val) } rest
    else if strcaseEq opt ['s', 'k', 'i', 'p', 'm', 'e'] then
      if strcaseEq val ['y', 'e', 's'] then parseKillOptions { ckd with skipme := true } rest
      else if strcaseEq val ['n', 'o'] then parseKillOptions { ckd with skipme := false } rest
      else .error .syntaxErr
    else .error .syntaxErr

def parseKill (args : List Sds) : Except ErrMsg ClientKillData :=
  let ckd : ClientKillData :=
    { addr := none, type := none, id := 0, skipme := true, killed := 0, closeThisClient := false }
  match args with
  | [] => .error .syntaxErr
  | [addr] => .ok { ckd with addr := some (cstr addr), skipme := false }
  | args => parseKillOptions ckd args

/-- The filter of CLIENT KILL, but for `skipme`. -/
def ClientKillData.selects (ckd : ClientKillData) (k : Client) : Bool :=
  (match ckd.addr with | none => true | some a => cstr k.peerid == a) &&
  (match ckd.type with | none => true | some t => k.type == t) &&
  (ckd.id == 0 || k.id == ckd.id)

def killLoop (i : ℕ) (c : Cid) : List Cid → Sys × ClientKillData → Sys × ClientKillData
  | [], acc => acc
  | x :: xs, (s, ckd) =>
    killLoop i c xs <|
      match s.client x with
      | none => (s, ckd)
      | some k =>
        if !ckd.selects k then (s, ckd)
        else if x = c then
          if ckd.skipme then (s, ckd)
          else (s, { ckd with closeThisClient := true, killed := ckd.killed + 1 })
        else (freeClient s i x, { ckd with killed := ckd.killed + 1 })

def killReply (r : Request) (ckd : ClientKillData) : Reply :=
  if r.args.length = 2 then
    if ckd.killed = 0 then .error .noSuchClient else .ok
  else .killed ckd.killed

/-- One step of CLIENT KILL with the filter at hand.  At later steps CLIENT_JUMP is set and the
filter is in the cache already. -/
def killStep (n : ℕ) (s : Sys) (i : ℕ) (c : Cid) (k : Client) (r : Request)
    (ckd : ClientKillData) : Sys :=
  let s := (s.log c (stepEvents i k r)).setClient c (jumpOn n (.kill ckd))
  let (s, ckd) := killLoop i c (s.loop i).clients (s, ckd)
  if k.steps ≥ n - 1 then
    (addReply s i c (killReply r ckd)).setClient c fun k =>
      { jumpDone k with closeAfterReply := ckd.closeThisClient || k.closeAfterReply }
  else s.setClient c fun k => { k with cache := .kill ckd }

def clientKill (n : ℕ) (s : Sys) (i : ℕ) (c : Cid) (k : Client) (r : Request) : Sys :=
  if k.steps = 0 then
    match parseKill r.args.tail with
    | .error e => addReply s i c (.error e)
    | .ok ckd => killStep n s i c k r ckd
  else
    match k.cache with
    | .kill ckd => killStep n s i c k r ckd
    | _ => s

/-- `clientCommand`; SETNAME and GETNAME are among the commands that do not jump. -/
def clientCommand (n : ℕ) (s : Sys) (i : ℕ) (c : Cid) (k : Client) (r : Request) : Sys :=
  match r.args with
  | [] => s -- never run: refused by the arity check
  | sub :: rest =>
    if strcaseEq sub ['l', 'i', 's', 't'] && rest.isEmpty then clientList n s i c k r
    else if strcaseEq sub ['k', 'i', 'l', 'l'] then clientKill n s i c k r
    else addReply s i c (.error .clientSyntax)

def commandStatsTableCreate (ncmd : ℕ) : List CommandStats :=
  (List.range ncmd).map (⟨·, 0, 0⟩)

def addStats (all table : List CommandStats) : List CommandStats :=
  List.zipWith (fun a t =>
    if t.calls = 0 then a
    else { a with calls := a.calls + t.calls, microseconds := a.microseconds + t.microseconds })
    all table

def commandStats (n : ℕ) (s : Sys) (i : ℕ) (c : Cid) (k : Client) (r : Request) : Sys :=
  let table := (s.loop i).cstable
  let all := if k.steps = 0 then commandStatsTableCreate table.length else
    match k.cache with
    | .stats all => all
    | _ => []
  let all := addStats all table
  let s := (s.log c (stepEvents i k r)).setClient c (jumpOn n (.stats all))
  if k.steps ≥ n - 1 then
    addReply (s.setClient c jumpDone) i c (.stats (all.filter (·.calls ≠ 0)))
  else s

def commandCommand (n : ℕ) (s : Sys) (i : ℕ) (c : Cid) (k : Client) (r : Request) : Sys :=
  match r.args with
  | [sub] =>
    if strcaseEq sub ['s', 't', 'a', 't', 's'] then commandStats n s i c k r
    else addReply s i c .other
  | _ => addReply s i c .other

def proc (n : ℕ) (s : Sys) (i : ℕ) (c : Cid) : Sys :=
  match s.client c with
  | none => s
  | some k =>
    match k.cmd with
    | none => s
    | some r =>
      match r.proc with
      | .client => clientCommand n s i c k r
      | .command => commandCommand n s i c k r
      | .close => (addReply s i c .ok).setClient c fun k => { k with closeAfterReply := true }
      | .other replies => if replies then addReply s i c .other else s

def chargeStats (s : Sys) (i : ℕ) (r : Request) : Sys :=
  s.setLoop i fun l => { l with cstable := l.cstable.modify r.idx fun t =>
    { t with calls := t.calls + 1, microseconds := t.microseconds + r.usec } }

def processCommand (n : ℕ) (s : Sys) (i : ℕ) (c : Cid) (r : Request) : Sys :=
  let s := s.setClient c fun k => { k with cmd := some r, querybuf := k.querybuf.tail }
  match r.proc with
  | .close => proc n s i c
  | _ => chargeStats (proc n s i c) i r

end Vire.Jump
