import Vire.Jump.Step

/-!
# Where a client is

Every client that was created is in exactly one place: in the client list of one event loop, in the
hands of a thread, or in one of the swap queues.  `Inv` says that the lists, the queues and the
threads agree with the places.
-/

namespace Vire.Jump

inductive Kind
  | list
  | kill (ckd : ClientKillData)
  | stats
deriving DecidableEq

/-- The well-formed requests for CLIENT LIST, CLIENT KILL and COMMAND STATS. -/
def kind? (r : Request) : Option Kind :=
  match r.proc, r.args with
  | .client, sub :: rest =>
    if strcaseEq sub ['l', 'i', 's', 't'] && rest.isEmpty then some .list
    else if strcaseEq sub ['k', 'i', 'l', 'l'] then
      match parseKill rest with
      | .ok ckd => some (.kill ckd)
      | .error _ => none
    else none
  | .command, [sub] => if strcaseEq sub ['s', 't', 'a', 't', 's'] then some .stats else none
  | _, _ => none

/-- `ckd` carries the filter that was parsed as `ckd₀`. -/
structure SameFilter (ckd₀ ckd : ClientKillData) : Prop where
  addr : ckd.addr = ckd₀.addr
  type : ckd.type = ckd₀.type
  id : ckd.id = ckd₀.id
  skipme : ckd.skipme = ckd₀.skipme

def Kind.Caches : Kind → Cache → Prop
  | .list, .list _ => True
  | .kill ckd₀, .kill ckd => SameFilter ckd₀ ckd
  | .stats, .stats _ => True
  | _, _ => False

def Cache.answer (r : Request) : Cache → Reply
  | .null => .other
  | .list str => .clientList str
  | .kill ckd => killReply r ckd
  | .stats all => .stats (all.filter (·.calls ≠ 0))

/-- The filter closes client `x` of the worker that runs a step for client `c`. -/
def ClientKillData.closes (ckd : ClientKillData) (s : Sys) (c x : Cid) : Bool :=
  match s.client x with
  | none => false
  | some k => ckd.selects k && (x ≠ c || !ckd.skipme)

/-- `P` is the result collected by client `c` after its step on worker `i`: the lines of the clients
of that worker are added, or the number of those that the filter closes. -/
def Kind.Collects (s : Sys) (i : ℕ) (c : Cid) (k : Client) : Kind → Cache → Prop
  | .list, P => P = .list (cachedLines k ++ getAllClientsInfoString s i)
  | .kill ckd₀, P => ∃ ckd ckd', (if k.steps = 0 then ckd = ckd₀ else k.cache = .kill ckd) ∧
      P = .kill ckd' ∧ SameFilter ckd ckd' ∧ ((s.loop i).clients.Nodup →
        ckd'.killed = ckd.killed + ((s.loop i).clients.filter (ckd.closes s c)).length)
  | .stats, P => ∃ all, P = .stats all

/-- The steps of a command issued on worker `w`, up to its `m`-th. -/
def runs (n w m : ℕ) : List Event := (List.range m).map fun j => .run ((w + j) % n)

/-- The whole history of a command issued on worker `w`: one step on each worker in turn, then one
reply. -/
def block (n w : ℕ) (r : Request) (rep : Reply) : List Event :=
  .issue w r :: (runs n w n ++ [.reply rep])

/-- The histories of a client that is linked to worker `i` and has no command under way. -/
inductive Settled (n : ℕ) : ℕ → List Event → Prop
  | nil (i : ℕ) : Settled n i []
  | reply {i : ℕ} {h : List Event} (rep : Reply) : Settled n i h → Settled n i (h ++ [.reply rep])
  | block {w : ℕ} {h : List Event} (r : Request) (rep : Reply) :
      Settled n w h → w < n → (kind? r).isSome →
      Settled n ((w + n - 1) % n) (h ++ block n w r rep)

/-- The histories of a client in the middle of request `r`, which it issued on worker `w` and which
has run `m + 1` steps. -/
def UnderWay (n w m : ℕ) (r : Request) (h : List Event) : Prop :=
  ∃ h₀, Settled n w h₀ ∧ h = h₀ ++ .issue w r :: runs n w (m + 1)

/-- Where a client is.  A client is `dropped` when it is freed for want of memory in the middle of
a command, and `lost` when the worker that has it ran into undefined behaviour.  `busy` and
`visiting` are the places of a client while a worker runs a handler for it; no client is there
between two steps. -/
inductive Place
  | gone
  | dropped
  | rest (i : ℕ)
  | leaving (i : ℕ)
  | out (i : ℕ)
  | back
  | held
  | queued (i : ℕ)
  | lost
  | busy (i : ℕ)
  | visiting (i : ℕ)
deriving DecidableEq

structure Rest (n i : ℕ) (k : Client) (h : List Event) : Prop where
  vel : k.vel = some i
  curidx : k.curidx = i
  steps : k.steps = 0
  jump : k.jump = false
  cache : k.cache = .null
  sd : 0 < k.sd
  hist : Settled n i h

/-- The fields of a client whose command ran its last step on worker `i` and goes on to the next
one. -/
structure Jumping (n i : ℕ) (k : Client) (h : List Event) : Prop where
  curidx : k.curidx = i
  taridx : k.taridx = workerGetNextIdx n i
  jump : k.jump = true
  steps : k.steps + 1 < n
  sd : 0 < k.sd
  notClosing : k.closeAfterReply = false
  cmd : ∃ r K w, k.cmd = some r ∧ kind? r = some K ∧ K.Caches k.cache ∧ w < n ∧
    (w + k.steps) % n = i ∧ UnderWay n w k.steps r h

structure Detached (n : ℕ) (k : Client) (h : List Event) : Prop where
  vel : k.vel = none
  pendingWrite : k.pendingWrite = false
  closeAsap : k.closeAsap = false
  unblocked : k.unblocked = false
  jumping : ∃ i < n, Jumping n i k h

/-- What the place of a client says about its fields and its history. -/
def Phase (n : ℕ) : Place → Option Client → List Event → Prop
  | .gone, k?, h => k? = none ∧ ∃ i, Settled n i h
  | .dropped, k?, _ => k? = none
  | .rest i, k?, h => i < n ∧ ∃ k, k? = some k ∧ Rest n i k h
  | .leaving i, k?, h => i < n ∧ ∃ k, k? = some k ∧ k.vel = some i ∧ k.steps = 0 ∧ Jumping n i k h
  | .out i, k?, h => i < n ∧ ∃ k, k? = some k ∧ k.vel = some i ∧ 1 ≤ k.steps ∧
      k.pendingWrite = false ∧ k.closeAsap = false ∧ k.unblocked = false ∧ Jumping n i k h
  | .back, k?, h => ∃ k, k? = some k ∧ Detached n k h
  | .held, k?, h => ∃ k, k? = some k ∧ Detached n k h
  | .queued i, k?, h => i < n ∧ ∃ k, k? = some k ∧ Detached n k h ∧ k.taridx = i
  | .lost, k?, _ => ∃ k, k? = some k ∧ k.pendingWrite = false ∧ k.closeAsap = false ∧
      k.unblocked = false ∧ ∃ i < n, k.curidx = i
  | .busy i, k?, _ => i < n ∧ ∃ k, k? = some k ∧ k.vel = some i
  | .visiting i, k?, _ => i < n ∧ ∃ k, k? = some k ∧ k.vel = some i

def unitClients (q : List ConnSwapUnit) : List Cid :=
  q.filterMap fun su => match su.data with
    | .listen => none
    | .client c => some c

/-- A list of one event loop per worker holds exactly the clients that point to that event loop and
have the flag of the list. -/
structure FlagList (client : Cid → Option Client) (l : ℕ → List Cid) (flag : Client → Bool) :
    Prop where
  nodup : ∀ i, (l i).Nodup
  mem_iff : ∀ i c, c ∈ l i ↔ ∃ k, client c = some k ∧ k.vel = some i ∧ flag k = true

structure Lists (s : Sys) : Prop where
  pendingWrite : FlagList s.client (fun i => (s.loop i).clientsPendingWrite) Client.pendingWrite
  toClose : FlagList s.client (fun i => (s.loop i).clientsToClose) Client.closeAsap
  unblocked : FlagList s.client (fun i => (s.loop i).unblockedClients) Client.unblocked

/-- The client lists, the queues and the threads agree with the places `pl`. -/
structure Placed (n : ℕ) (pl : Cid → Place) (s : Sys) : Prop where
  clients_nodup : ∀ i, (s.loop i).clients.Nodup
  clients_iff : ∀ i c, c ∈ (s.loop i).clients ↔
    pl c = .rest i ∨ pl c = .leaving i ∨ pl c = .busy i
  back_nodup : (unitClients s.cbsul).Nodup
  back_iff : ∀ c, c ∈ unitClients s.cbsul ↔ pl c = .back
  back_num : ∀ su ∈ s.cbsul, ∃ c k, su.data = .client c ∧ s.client c = some k ∧ su.num = k.taridx
  queued_nodup : ∀ i, (unitClients (s.csul i)).Nodup
  queued_iff : ∀ i c, c ∈ unitClients (s.csul i) ↔ pl c = .queued i
  queued_num : ∀ i, ∀ su ∈ s.csul i, su.data = .listen → 0 < su.num ∧ i < n
  held_iff : ∀ c, pl c = .held ↔ ∃ idx su, s.master = .hold idx su ∧ su.data = .client c
  held_num : ∀ idx su, s.master = .hold idx su →
    ∃ c k, su.data = .client c ∧ s.client c = some k ∧ idx = k.taridx
  dispatch_iff : ∀ i c, s.worker i = .dispatch c ↔ pl c = .leaving i ∨ pl c = .out i
  input : ∀ i c b, s.worker i = .input c b → pl c = .rest i ∨ pl c = .busy i
  fresh : ∀ c, s.nextCid ≤ c → pl c = .gone ∧ s.hist c = []

structure Inv (n : ℕ) (pl : Cid → Place) (s : Sys) : Prop where
  phase : ∀ c, Phase n (pl c) (s.client c) (s.hist c)
  lists : Lists s
  placed : Placed n pl s

/-- No client is in the middle of a handler, and none was dropped or lost if `strict`. -/
structure Between (strict : Prop) (pl : Cid → Place) : Prop where
  busy : ∀ c i, pl c ≠ .busy i
  visiting : ∀ c i, pl c ≠ .visiting i
  strict : strict → ∀ c, pl c ≠ .dropped ∧ pl c ≠ .lost

end Vire.Jump
