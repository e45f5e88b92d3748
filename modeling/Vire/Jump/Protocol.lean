import Mathlib.Algebra.BigOperators.Group.Finset.Basic
import Vire.Jump.Place
import Vire.Logic.Run

/-!
# The swap protocol

A unit in a queue is announced by a byte in a socket pair, and the two are matched by position
only.  This module says what the match is, and which steps keep it.
-/

namespace Vire.Jump

def Data.tag : Data → Tag
  | .listen => .c
  | .client _ => .j

def WorkerPc.tags : WorkerPc → List Tag
  | .gotByte tag true => [tag]
  | _ => []

def MasterPc.tags (t : ℕ) : MasterPc → List Tag
  | .notify w tag => if w = t then [tag] else []
  | _ => []

def WorkerPc.owes : WorkerPc → ℕ
  | .pushed _ | .notify _ => 1
  | _ => 0

def MasterPc.has : MasterPc → ℕ
  | .gotByte _ _ true => 1
  | _ => 0

/-- The bytes for the master that are written or about to be written and not yet acted on. -/
def tokens (n : ℕ) (s : Sys) : ℕ :=
  s.master.has + ∑ w ∈ Finset.range n, ((s.toMaster w).length + (s.worker w).owes)

/-- The units in the queue of a worker are those announced by its bytes, in the same order, and
there is a byte for every unit in the queue of the master. -/
structure Matched (n : ℕ) (s : Sys) : Prop where
  worker : ∀ t, (s.csul t).map (·.data.tag) =
    (s.worker t).tags ++ s.toWorker t ++ s.master.tags t
  master : s.cbsul.length ≤ tokens n s
  bytes : ∀ w, ∀ tag ∈ s.toMaster w, tag = .b
  byte : ∀ w tag real, s.master = .gotByte w tag real → tag = .b
  notify : ∀ i idx, s.worker i = .notify idx → ∃ w < n, workerAt n idx = some w
  range : ∀ w, n ≤ w → s.toMaster w = [] ∧ (s.worker w).owes = 0

/-- Workers are the threads below `n`, every client knows one of them, and only clients go through
the queue of the master. -/
structure Ranged (n : ℕ) (s : Sys) : Prop where
  curidx : ∀ c k, s.client c = some k → ∃ w < n, k.curidx = (w : ℤ)
  worker : ∀ i, n ≤ i → s.worker i = .idle
  toWorker : ∀ i, n ≤ i → s.toWorker i = []
  clients : ∀ i, n ≤ i → (s.loop i).clients = []
  notify : ∀ w tag, s.master = .notify w tag → w < n
  cbsul : ∀ su ∈ s.cbsul, su.data.tag = .j
  hold : ∀ idx su, s.master = .hold idx su → su.data.tag = .j

/-- No client that is scheduled for asynchronous freeing starts a jump. -/
def Tidy (s : Sys) : Act → Prop
  | .dispatch i true => ∀ c k, s.worker i = .dispatch c → s.client c = some k → k.steps = 0 →
      k.closeAsap = false
  | _ => True

instance (s : Sys) (a : Act) : Decidable (Tidy s a) := by
  unfold Tidy
  split
  · rename_i i
    cases hw : s.worker i with
    | dispatch c =>
      cases hk : s.client c with
      | none => exact .isTrue (by rintro _ k ⟨⟩ hk'; rw [hk] at hk'; cases hk')
      | some k =>
        refine decidable_of_iff (k.steps = 0 → k.closeAsap = false) ⟨?_, fun h => h c k rfl hk⟩
        rintro h _ k' ⟨⟩ hk'
        rw [hk] at hk'
        cases hk'
        exact h
    | _ => exact .isTrue (by rintro _ _ ⟨⟩)
  · infer_instance

/-- Memory for a swap unit does not run out, and no unit is taken for one of the other kind. -/
def Orderly (s : Sys) : Act → Prop
  | .dispatch _ alloc => alloc = true
  | .pop i _ _ => ∀ tag real su rest, s.worker i = .gotByte tag real → s.csul i = su :: rest →
      tag = su.data.tag
  | _ => True

/-- No notification is lost: its write succeeds, a worker whose read returned no byte finds its
queue empty, and a client still exists when the worker that pushed it reads its `curidx`. -/
def Notified (s : Sys) : Act → Prop
  | .masterWrite ok => ok = true
  | .write _ ok => ok = true
  | .pop i _ _ => ∀ tag, s.worker i = .gotByte tag false → s.csul i = []
  | .readCuridx i _ => ∀ c, s.worker i = .pushed c → s.client c ≠ none
  | _ => True

instance (s : Sys) (a : Act) : Decidable (Notified s a) := by
  unfold Notified
  split
  · infer_instance
  · infer_instance
  · rename_i i _ _
    cases hw : s.worker i with
    | gotByte tag real =>
      cases real with
      | true => exact .isTrue (by rintro _ ⟨⟩)
      | false =>
        exact decidable_of_iff (s.csul i = []) ⟨fun h _ _ => h, fun h => h tag rfl⟩
    | _ => exact .isTrue (by rintro _ ⟨⟩)
  · rename_i i _
    cases hw : s.worker i with
    | pushed c =>
      refine decidable_of_iff ((s.client c).isSome = true) ⟨?_, fun h => ?_⟩
      · rintro h _ ⟨⟩
        exact Option.isSome_iff_ne_none.mp h
      · exact Option.isSome_iff_ne_none.mpr (h c rfl)
    | _ => exact .isTrue (by rintro _ ⟨⟩)
  · infer_instance

/-- Memory for a swap unit does not run out, and the socket pairs are lossless: every write of a
byte succeeds, and every read returns one. -/
def Lossless : Act → Prop
  | .dispatch _ alloc => alloc = true
  | .masterWrite ok => ok = true
  | .masterRead _ ok => ok = true
  | .read _ ok => ok = true
  | .write _ ok => ok = true
  | _ => True

instance (a : Act) : Decidable (Lossless a) := by
  unfold Lossless
  split <;> infer_instance

/-- What the code takes for granted: no client that is scheduled for asynchronous freeing starts a
jump, and a client still exists when the worker that pushed it reads its `curidx`. -/
def Careful (s : Sys) : Act → Prop
  | .dispatch i alloc => Tidy s (.dispatch i alloc)
  | .readCuridx i junk => Notified s (.readCuridx i junk)
  | _ => True

instance (s : Sys) (a : Act) : Decidable (Careful s a) := by
  unfold Careful
  split <;> infer_instance

/-- The socket of a client that has visited all workers can be registered with the last one. -/
def Registered : Act → Prop
  | .pop _ _ ae => ae = true
  | _ => True

instance (a : Act) : Decidable (Registered a) := by
  unfold Registered
  split <;> infer_instance

abbrev ServerRun (n ncmd : ℕ) := Logic.Run (step n) (init ncmd)

def TakenRight (s : Sys) : Act → Prop
  | .pop i _ _ => ∀ tag real su rest, s.worker i = .gotByte tag real → s.csul i = su :: rest →
      tag = su.data.tag
  | _ => True

/-- No byte is unread, read and not yet acted on, or about to be written. -/
structure Silent (s : Sys) : Prop where
  toWorker : ∀ w, s.toWorker w = []
  toMaster : ∀ w, s.toMaster w = []
  master : (∀ w tag real, s.master ≠ .gotByte w tag real) ∧ ∀ w tag, s.master ≠ .notify w tag
  worker : ∀ i, (∀ tag real, s.worker i ≠ .gotByte tag real) ∧ (∀ c, s.worker i ≠ .pushed c) ∧
    ∀ idx, s.worker i ≠ .notify idx

/-- The client was handed to `dispatch_conn_exist` and is not linked again yet. -/
def InTransit (s : Sys) (c : Cid) : Prop :=
  c ∈ unitClients s.cbsul ∨ (∃ i, c ∈ unitClients (s.csul i)) ∨
    (∃ idx su, s.master = .hold idx su ∧ su.data = .client c) ∨
    ∃ i k, s.worker i = .dispatch c ∧ s.client c = some k ∧ 1 ≤ k.steps

def Listed (s : Sys) (c : Cid) (i : ℕ) : Prop :=
  c ∈ (s.loop i).clients ∨ c ∈ (s.loop i).clientsPendingWrite ∨
    c ∈ (s.loop i).unblockedClients ∨ c ∈ (s.loop i).clientsToClose

/-- A client is in the lists of no event loop while it moves, and of one event loop otherwise. -/
structure Exclusive (s : Sys) : Prop where
  inTransit : ∀ c, InTransit s c → ∀ i, ¬ Listed s c i
  linked : ∀ c i, c ∈ (s.loop i).clients →
    ∃ k, s.client c = some k ∧ k.vel = some i ∧ ∀ j, Listed s c j → j = i
  pendingWrite : ∀ c k, s.client c = some k →
    (k.pendingWrite = true ↔ ∃ i, c ∈ (s.loop i).clientsPendingWrite)
  closeAsap : ∀ c k, s.client c = some k →
    (k.closeAsap = true ↔ ∃ i, c ∈ (s.loop i).clientsToClose)

/-- The byte a worker has read announces the unit it pops. -/
def Announced (s : Sys) : Act → Prop
  | .pop i _ _ => ∀ tag real, s.worker i = .gotByte tag real →
      ∃ su rest, s.csul i = su :: rest ∧ su.data.tag = tag
  | _ => True

/-- Worker `i` takes the request `q` of client `c` from its query buffer at position `m`. -/
def Issues {n ncmd : ℕ} (r : ServerRun n ncmd) (m i : ℕ) (c : Cid) (q : Request) : Prop :=
  ∃ ae linked k rest, r.act m = some (.input i ae) ∧ (r.state m).worker i = .input c linked ∧
    (r.state m).client c = some k ∧ k.querybuf = q :: rest ∧ k.closeAfterReply = false

inductive Spot
  | loop (i : ℕ)
  | cbsul
  | csul (i : ℕ)
  | master
  | worker (i : ℕ)
deriving DecidableEq, Repr

/-- Client `c` is at the spot: in the client list of an event loop, in a queue, or in the hands of a
thread that moves it. -/
def At (s : Sys) (c : Cid) : Spot → Prop
  | .loop i => c ∈ (s.loop i).clients
  | .cbsul => c ∈ unitClients s.cbsul
  | .csul i => c ∈ unitClients (s.csul i)
  | .master => ∃ idx su, s.master = .hold idx su ∧ su.data = .client c
  | .worker i => s.worker i = .dispatch c ∧ ∃ k, s.client c = some k ∧ 1 ≤ k.steps

/-- No client is lost or duplicated: every connected client is at exactly one spot, and the history
of each one is a sequence of complete commands, the last of which may be under way. -/
structure Accounted (n : ℕ) (s : Sys) : Prop where
  spot : ∀ c, s.client c ≠ none ↔ ∃ p, At s c p
  unique : ∀ c p p', At s c p → At s c p' → p = p'
  loop_nodup : ∀ i, (s.loop i).clients.Nodup
  cbsul_nodup : (unitClients s.cbsul).Nodup
  csul_nodup : ∀ i, (unitClients (s.csul i)).Nodup
  hist : ∀ c k, s.client c = some k →
    (∃ i < n, At s c (.loop i) ∧ k.vel = some i ∧ k.steps = 0 ∧ k.jump = false ∧
      Settled n i (s.hist c)) ∨
    (k.jump = true ∧ ∃ w < n, ∃ q, UnderWay n w k.steps q (s.hist c))
  alive : s.master ≠ .dead ∧ ∀ i, s.worker i ≠ .dead

/-- Client `c` is linked to the event loop of worker `i`, and to no other, and has no command under
way. -/
structure LinkedOnly (s : Sys) (c : Cid) (i : ℕ) : Prop where
  spot : ∀ p, At s c p ↔ p = .loop i
  fields : ∃ k, s.client c = some k ∧ k.vel = some i ∧ k.steps = 0 ∧ k.jump = false

/-- The thread that takes a step: the master, or a worker. -/
def Act.thread : Act → Option ℕ
  | .accept _ _ | .masterWrite _ | .masterRead _ _ | .masterPop | .masterPush => none
  | .read i _ | .pop i _ _ | .dispatch i _ | .readCuridx i _ | .write i _ | .readQuery i _ _
  | .input i _ | .sendReply i _ _ | .beforeSleep i _ _ | .cron i => some i

/-- A thread in the middle of a handler goes on, and an event loop gets round to a socket with a
byte in it. -/
structure Fair {n ncmd : ℕ} (r : ServerRun n ncmd) : Prop where
  master : r.FairTo (fun s => s.master ≠ .idle ∧ s.master ≠ .dead) fun a => a.thread = none
  worker : ∀ i < n, r.FairTo (fun s => s.worker i ≠ .idle ∧ s.worker i ≠ .dead) fun a =>
    a.thread = some i
  masterRead : ∀ w < n, r.FairTo (fun s => s.toMaster w ≠ [] ∧ s.master ≠ .dead) fun a =>
    a = .masterRead w true
  read : ∀ i < n, r.FairTo (fun s => s.toWorker i ≠ [] ∧ s.worker i ≠ .dead) fun a =>
    a = .read i true

def UniqueIds (s : Sys) : Prop :=
  ∀ c c' k k', s.client c = some k → s.client c' = some k' → k.id = k'.id → c = c'

/-- The commands of a history with their replies; the argument is the command that waits for one. -/
def answers : Option Request → List Event → List (Request × Reply)
  | _, [] => []
  | _, .issue _ r :: es => answers (some r) es
  | r?, .run _ :: es => answers r? es
  | some r, .reply rep :: es => (r, rep) :: answers none es
  | none, .reply _ :: es => answers none es

/-- Every CLIENT KILL ID that was answered closed at most one client. -/
def KillsOne (s : Sys) : Prop :=
  ∀ c r rep ckd, (r, rep) ∈ answers none (s.hist c) → kind? r = some (.kill ckd) → ckd.id ≠ 0 →
    ∃ m ≤ 1, rep = .killed m

/-- Client `c` issues the request `q` on worker `w` at position `a` of the run, and has the reply
`rep` after position `b`. -/
structure Executes {n ncmd : ℕ} (r : ServerRun n ncmd) (c : Cid) (w : ℕ) (q : Request) (rep : Reply)
    (a b : ℕ) : Prop where
  le : a ≤ b
  begins : (r.state a).hist c ++ [.issue w q] <+: (r.state (a + 1)).hist c
  ends : (r.state (b + 1)).hist c = (r.state a).hist c ++ block n w q rep

/-- What the lines about a client say as long as it is connected. -/
def Client.ident (k : Client) : ℕ × ℤ × Sds := (k.id, k.sd, k.peerid)

def linesOf (x : Cid) (lines : List ClientInfo) : List (ℕ × ℤ × Sds) :=
  (lines.filter (·.who = x)).map fun l => (l.id, l.fd, l.addr)

def connects (t : ℕ) (sd : ℤ) : List Act :=
  [.accept sd true, .masterWrite true, .read t true, .pop t (.created []) true]

end Vire.Jump
