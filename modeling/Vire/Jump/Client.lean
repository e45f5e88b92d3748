import Mathlib.Logic.Function.Basic
import Vire.Sds

/-!
# Clients, event loops and the swap queues

The state shared by the master and the workers while clients are accepted, served and moved.  A
client is named by a `Cid`, which stands for its address; an address is never given out twice, so
reading a client after it was freed is visible.  Left out are the fields that no function modelled
here reads, and the flags of replication, pub/sub, MULTI and blocking clients, which no command of
the table can set.
-/

namespace Vire.Jump

abbrev Cid := ℕ

inductive Tag
  | c | j | b
deriving DecidableEq, Repr

/-- What the untyped `data` field of a swap unit points to. -/
inductive Data
  | listen
  | client (c : Cid)
deriving DecidableEq, Repr

/-- `struct connswapunit`: `num` is a descriptor, a target worker or a source worker. -/
structure ConnSwapUnit where
  num : ℤ
  data : Data
deriving DecidableEq, Repr

inductive ClientType
  | normal | slave | pubsub | master
deriving DecidableEq, Repr

/-- One line of CLIENT LIST.  `who` is not printed: it records which client the line is about. -/
structure ClientInfo where
  who : Cid
  oid : ℤ
  id : ℕ
  addr : Sds
  fd : ℤ
  flags : List Char
deriving DecidableEq, Repr

structure ClientKillData where
  addr : Option Sds
  type : Option ClientType
  id : ℕ
  skipme : Bool
  killed : ℕ
  closeThisClient : Bool
deriving DecidableEq, Repr

/-- A row of the per worker table of command statistics; `name` is the row of the command table. -/
structure CommandStats where
  name : ℕ
  calls : ℕ
  microseconds : ℕ
deriving DecidableEq, Repr

inductive ErrMsg
  | notInteger
  | unknownClientType (name : Sds)
  | syntaxErr
  | noSuchClient
  | clientSyntax
  | commandSyntax
deriving DecidableEq, Repr

inductive Reply
  | clientList (lines : List ClientInfo)
  | killed (n : ℕ)
  | ok
  | error (e : ErrMsg)
  | stats (rows : List CommandStats)
  | other
deriving DecidableEq, Repr

/-- The field `cache`, in which a command that visits all workers keeps its partial result. -/
inductive Cache
  | null
  | list (str : List ClientInfo)
  | kill (ckd : ClientKillData)
  | stats (cstableall : List CommandStats)
deriving DecidableEq, Repr

/-- `c->cmd->proc`.  `close` is QUIT and every request the parser refuses: one reply, then
CLIENT_CLOSE_AFTER_REPLY.  `other` is any command that does not jump. -/
inductive Proc
  | client
  | command
  | close
  | other (replies : Bool)
deriving DecidableEq, Repr

/-- A request: its handler, its arguments without the command name, the row of the command in the
statistics table and the time `call` charges to it. -/
structure Request where
  proc : Proc
  args : List Sds
  idx : ℕ
  usec : ℕ
deriving DecidableEq, Repr

structure Client where
  id : ℕ
  sd : ℤ
  peerid : Sds
  type : ClientType
  vel : Option ℕ
  curidx : ℤ
  taridx : ℤ
  steps : ℕ
  jump : Bool
  pendingWrite : Bool
  unblocked : Bool
  closeAsap : Bool
  closeAfterReply : Bool
  cache : Cache
  cmd : Option Request
  reply : List Reply
  querybuf : List Request
deriving DecidableEq, Repr

/-- `vr_eventloop`: the lists of clients that a worker owns. -/
structure EventLoop where
  clients : List Cid
  clientsPendingWrite : List Cid
  clientsToClose : List Cid
  unblockedClients : List Cid
  nextClientId : ℕ
  cstable : List CommandStats
deriving DecidableEq, Repr

/-- What a client has been through: the worker on which it issued a command that visits all
workers, each worker on which that command ran its step, and each reply put in its buffer. -/
inductive Event
  | issue (w : ℕ) (r : Request)
  | run (w : ℕ)
  | reply (r : Reply)
deriving DecidableEq, Repr

/-- Where the master thread is.  `gotByte` is between the read and the pop (`real` says that the
read returned a byte), `hold` between the pop and the push, `notify` between a push and the write
of its byte. -/
inductive MasterPc
  | idle
  | gotByte (w : ℕ) (tag : Tag) (real : Bool)
  | hold (idx : ℤ) (su : ConnSwapUnit)
  | notify (w : ℕ) (tag : Tag)
  | dead
deriving DecidableEq, Repr

/-- Where a worker thread is.  `input` is inside `processInputBuffer` (called by
`linkClientToEventloop` if `linked`), `dispatch` before the push of `dispatch_conn_exist`, `pushed`
after it, and `notify` after `c->curidx` was read.  `dead` is a thread that ran into undefined
behaviour. -/
inductive WorkerPc
  | idle
  | gotByte (tag : Tag) (real : Bool)
  | input (c : Cid) (linked : Bool)
  | dispatch (c : Cid)
  | pushed (c : Cid)
  | notify (idx : ℤ)
  | dead
deriving DecidableEq, Repr

/-- The state of the server.  `toWorker w` and `toMaster w` are the two directions of the socket
pair of worker `w`, `nextCid` the next fresh address, and `hist` the history of each client. -/
structure Sys where
  client : Cid → Option Client
  nextCid : Cid
  loop : ℕ → EventLoop
  cbsul : List ConnSwapUnit
  csul : ℕ → List ConnSwapUnit
  toWorker : ℕ → List Tag
  toMaster : ℕ → List Tag
  lastWorkerThread : ℤ
  master : MasterPc
  worker : ℕ → WorkerPc
  hist : Cid → List Event

namespace Sys

def setClient (s : Sys) (c : Cid) (f : Client → Client) : Sys :=
  { s with client := Function.update s.client c ((s.client c).map f) }

def setLoop (s : Sys) (i : ℕ) (f : EventLoop → EventLoop) : Sys :=
  { s with loop := Function.update s.loop i (f (s.loop i)) }

def setWorker (s : Sys) (i : ℕ) (pc : WorkerPc) : Sys :=
  { s with worker := Function.update s.worker i pc }

def log (s : Sys) (c : Cid) (es : List Event) : Sys :=
  { s with hist := Function.update s.hist c (s.hist c ++ es) }

end Sys

/-- The state right after `workers_init` and `master_init`. -/
def init (ncmd : ℕ) : Sys where
  client _ := none
  nextCid := 0
  loop _ := ⟨[], [], [], [], 1, (List.range ncmd).map (⟨·, 0, 0⟩)⟩
  cbsul := []
  csul _ := []
  toWorker _ := []
  toMaster _ := []
  lastWorkerThread := -1
  master := .idle
  worker _ := .idle
  hist _ := []

end Vire.Jump
