import Mathlib.Algebra.BigOperators.Fin
import Mathlib.Data.Finset.Basic
import Mathlib.Tactic.Abel
import Vire.Logic.Run

/-!
# Counting connections

How the master accepts a connection and hands it to a worker, what the worker does with it, and how
a client is freed, with the counter `ncurr_cconn` of current clients.  A step is one system call,
one allocation, one access to a queue or one update of the counter.  Which worker frees a client for
which reason plays no role here; that a worker finds the unit it was told of in its queue is the
subject of `Vire.Jump`.
-/

namespace Vire.Connection

open Function Option

/-- Where the master is in `client_accept`. -/
inductive MasterPc
  | idle
  /-- `accept` returned a socket; the counter is compared with `maxclients` next -/
  | accepted (sd : ℕ)
  /-- too many clients: `close` -/
  | refuse (sd : ℕ)
  /-- `vr_listen_accept` returned -/
  | returned (sd : ℕ)
  /-- `csui_new` -/
  | alloc (sd : ℕ)
  /-- it failed: `close` -/
  | drop (sd : ℕ)
  /-- `csul_push` -/
  | push (sd : ℕ)
  /-- the byte for the worker -/
  | notify
  /-- `update_curr_clients_add(1)` -/
  | count
  deriving DecidableEq

/-- Where a worker is in `thread_event_process` or `freeClient`. -/
inductive WorkerPc
  | idle
  /-- `conn_get` -/
  | getConn (sd : ℕ)
  /-- it failed: `close` -/
  | noConn (sd : ℕ)
  /-- `vr_set_nonblocking` -/
  | nonblock (sd : ℕ)
  | createClient (sd : ℕ)
  /-- `aeCreateFileEvent` -/
  | register
  /-- `conn_put`: `close` -/
  | put (sd : ℕ)
  /-- `update_curr_clients_sub(1)` -/
  | sub
  deriving DecidableEq

/-- `n` workers.  `opened` are the accepted sockets that are open, `clients` those of all
clients. -/
structure State (n : ℕ) where
  opened : Finset ℕ
  counter : ℤ
  master : MasterPc
  lastWorkerThread : Fin n
  csul : Fin n → List ℕ
  worker : Fin n → WorkerPc
  clients : Multiset ℕ

inductive Act (n : ℕ)
  /-- `accept`; `none` for an error -/
  | accept (sd : Option ℕ)
  | check
  | refuse
  /-- the loop of `client_accept` goes on -/
  | dispatch
  /-- or it ends, for a descriptor that is not positive -/
  | leave
  | alloc (ok : Bool)
  | drop
  | push
  | notify
  | count
  | pop (w : Fin n)
  | getConn (w : Fin n) (ok : Bool)
  | closeSd (w : Fin n)
  | nonblock (w : Fin n) (ok : Bool)
  | createClient (w : Fin n) (ok : Bool)
  | register (w : Fin n) (ok : Bool)
  | freeClient (w : Fin n) (sd : ℕ)
  | close (w : Fin n)
  | sub (w : Fin n)
  deriving DecidableEq

variable {n : ℕ}

def State.goto (s : State n) (w : Fin n) (pc : WorkerPc) : State n :=
  { s with worker := update s.worker w pc }

def init [NeZero n] : State n where
  opened := ∅
  counter := 0
  master := .idle
  lastWorkerThread := Fin.ofNat n (n - 1)
  csul _ := []
  worker _ := .idle
  clients := 0

def masterStep [NeZero n] (maxclients : ℤ) (s : State n) : Act n → Option (State n)
  | .accept none => if s.master = .idle then some s else none
  | .accept (some sd) =>
    if s.master = .idle ∧ sd ∉ s.opened then
      some { s with opened := insert sd s.opened, master := .accepted sd }
    else none
  | .check =>
    match s.master with
    | .accepted sd =>
      some { s with master := if maxclients ≤ s.counter then .refuse sd else .returned sd }
    | _ => none
  | .refuse =>
    match s.master with
    | .refuse sd => some { s with opened := s.opened.erase sd, master := .idle }
    | _ => none
  | .dispatch =>
    match s.master with
    | .returned sd => if 0 < sd then some { s with master := .alloc sd } else none
    | _ => none
  | .leave =>
    match s.master with
    | .returned sd => if 0 < sd then none else some { s with master := .idle }
    | _ => none
  | .alloc ok =>
    match s.master with
    | .alloc sd => some { s with master := if ok then .push sd else .drop sd }
    | _ => none
  | .drop =>
    match s.master with
    | .drop sd => some { s with opened := s.opened.erase sd, master := .idle }
    | _ => none
  | .push =>
    match s.master with
    | .push sd =>
      let tid := s.lastWorkerThread + 1
      some { s with
        lastWorkerThread := tid, csul := update s.csul tid (s.csul tid ++ [sd])
        master := .notify }
    | _ => none
  | .notify => if s.master = .notify then some { s with master := .count } else none
  | .count =>
    if s.master = .count then some { s with counter := s.counter + 1, master := .idle } else none
  | _ => none

def workerStep (s : State n) : Act n → Option (State n)
  | .pop w =>
    match s.worker w, s.csul w with
    | .idle, sd :: rest =>
      some { s.goto w (.getConn sd) with csul := update s.csul w rest }
    | _, _ => none
  | .getConn w ok =>
    match s.worker w with
    | .getConn sd => some (s.goto w (if ok then .nonblock sd else .noConn sd))
    | _ => none
  | .closeSd w =>
    match s.worker w with
    | .noConn sd => some { s.goto w .idle with opened := s.opened.erase sd }
    | _ => none
  | .nonblock w ok =>
    match s.worker w with
    | .nonblock sd => some (s.goto w (if ok then .createClient sd else .put sd))
    | _ => none
  | .createClient w ok =>
    match s.worker w with
    | .createClient sd =>
      if ok then some { s.goto w .register with clients := sd ::ₘ s.clients }
      else some (s.goto w (.put sd))
    | _ => none
  -- an error is only logged: `createClient` has registered the event already
  | .register w _ => if s.worker w = .register then some (s.goto w .idle) else none
  | .freeClient w sd =>
    if s.worker w = .idle ∧ sd ∈ s.clients then
      some { s.goto w (.put sd) with clients := s.clients.erase sd }
    else none
  | .close w =>
    match s.worker w with
    | .put sd =>
      if 0 < sd then some { s.goto w .sub with opened := s.opened.erase sd }
      else some (s.goto w .idle)
    | _ => none
  | .sub w =>
    if s.worker w = .sub then some { s.goto w .idle with counter := s.counter - 1 } else none
  | _ => none

def step [NeZero n] (maxclients : ℤ) (s : State n) (a : Act n) : Option (State n) :=
  (masterStep maxclients s a).or (workerStep s a)

def MasterPc.held : MasterPc → Multiset ℕ
  | accepted sd | refuse sd | returned sd | alloc sd | drop sd | push sd => {sd}
  | idle | notify | count => 0

def MasterPc.uncounted : MasterPc → ℤ
  | idle => 0
  | _ => 1

def MasterPc.admitted : MasterPc → ℤ
  | returned _ | alloc _ | push _ | notify | count => 1
  | idle | accepted _ | refuse _ | drop _ => 0

def WorkerPc.held : WorkerPc → Multiset ℕ
  | getConn sd | noConn sd | nonblock sd | createClient sd | put sd => {sd}
  | idle | register | sub => 0

/-- How far the counter will be from the number of open sockets because of the worker: it has closed
a socket and will subtract it, or it will close one and not subtract it. -/
def WorkerPc.due : WorkerPc → ℤ
  | sub => 1
  | noConn _ => -1
  | _ => 0

def State.atWorker (s : State n) (w : Fin n) : Multiset ℕ := ↑(s.csul w) + (s.worker w).held

/-- After `lost` failures of `conn_get` and `strays` sockets that `client_accept` left alone. -/
structure Balanced (maxclients : ℤ) (lost strays : ℕ) (s : State n) : Prop where
  held : s.master.held + ∑ w, s.atWorker w + s.clients + Multiset.replicate strays 0 = s.opened.val
  pos : ∀ sd ∈ ∑ w, s.atWorker w + s.clients, 0 < sd
  posMaster : ∀ sd, s.master = .alloc sd ∨ s.master = .push sd → 0 < sd
  counter : s.counter + s.master.uncounted + strays =
    s.opened.card + ∑ w, (s.worker w).due + lost
  limit : s.counter + s.master.admitted ≤ max 0 maxclients

theorem sum_change {ι M : Type} [Fintype ι] [DecidableEq ι] [AddCommMonoid M] {f g : ι → M} (i : ι)
    (h : ∀ j, j ≠ i → f j = g j) : ∑ j, f j + g i = ∑ j, g j + f i := by
  rw [← Finset.add_sum_erase _ f (Finset.mem_univ i),
    ← Finset.add_sum_erase _ g (Finset.mem_univ i),
    Finset.sum_congr rfl fun j hj => h j (Finset.ne_of_mem_erase hj)]
  abel

variable {maxclients : ℤ} {lost lost' strays strays' : ℕ} {s s' : State n} {w : Fin n} {sd : ℕ}

theorem Balanced.mem_opened (h : Balanced maxclients lost strays s)
    (hsd : sd ∈ s.master.held ∨ ∃ w, sd ∈ s.atWorker w) : sd ∈ s.opened := by
  rw [← Finset.mem_val, ← h.held]
  rcases hsd with hsd | ⟨w, hsd⟩
  · simp [hsd]
  · have : sd ∈ ∑ w, s.atWorker w := Multiset.mem_sum.mpr ⟨w, Finset.mem_univ w, hsd⟩
    simp [this]

theorem erase_val_add {opened : Finset ℕ} (h : sd ∈ opened) :
    {sd} + (opened.erase sd).val = opened.val := by
  rw [Finset.erase_val, Multiset.singleton_add]
  exact Multiset.cons_erase h

section

variable (h : Balanced maxclients lost strays s)

include h

theorem Balanced.at_worker (w : Fin n)
    (hm : s'.master = s.master) (hcsul : ∀ v, v ≠ w → s'.csul v = s.csul v)
    (hworker : ∀ v, v ≠ w → s'.worker v = s.worker v)
    (hheld : s'.atWorker w + s'.clients + s.opened.val = s.atWorker w + s.clients + s'.opened.val)
    (hpos : ∀ sd ∈ s'.atWorker w + s'.clients, sd ∈ s.atWorker w + s.clients)
    (hcounter : s'.counter + s.opened.card + (s.worker w).due + lost =
      s.counter + s'.opened.card + (s'.worker w).due + lost')
    (hle : s'.counter ≤ s.counter) : Balanced maxclients lost' strays s' := by
  have hat : ∀ v, v ≠ w → s'.atWorker v = s.atWorker v := fun v hv => by
    rw [State.atWorker, State.atWorker, hcsul v hv, hworker v hv]
  have hsum := sum_change w hat
  have hdue := sum_change (f := fun v => (s'.worker v).due) (g := fun v => (s.worker v).due) w
    fun v hv => by simp only [hworker v hv]
  refine ⟨?_, ?_, ?_, ?_, ?_⟩
  · refine add_right_cancel (b := s.atWorker w + s.clients) ?_
    calc s'.master.held + ∑ v, s'.atWorker v + s'.clients + Multiset.replicate strays 0 +
          (s.atWorker w + s.clients)
        = s.master.held + s'.clients + Multiset.replicate strays 0 + s.clients +
          (∑ v, s'.atWorker v + s.atWorker w) := by rw [hm]; abel
      _ = s'.atWorker w + s'.clients +
          (s.master.held + ∑ v, s.atWorker v + s.clients + Multiset.replicate strays 0) := by
          rw [hsum]; abel
      _ = s'.opened.val + (s.atWorker w + s.clients) := by rw [h.held, hheld]; abel
  · intro sd hsd
    have hw : sd ∈ s.atWorker w + s.clients → 0 < sd := by
      intro hsd
      refine h.pos sd ?_
      rcases Multiset.mem_add.mp hsd with hsd | hsd
      · exact Multiset.mem_add.mpr (.inl (Multiset.mem_sum.mpr ⟨w, Finset.mem_univ w, hsd⟩))
      · exact Multiset.mem_add.mpr (.inr hsd)
    rcases Multiset.mem_add.mp hsd with hsd | hsd
    · obtain ⟨v, -, hv⟩ := Multiset.mem_sum.mp hsd
      by_cases hvw : v = w
      · subst hvw
        exact hw (hpos sd (Multiset.mem_add.mpr (.inl hv)))
      · rw [hat v hvw] at hv
        exact h.pos sd
          (Multiset.mem_add.mpr (.inl (Multiset.mem_sum.mpr ⟨v, Finset.mem_univ v, hv⟩)))
    · exact hw (hpos sd (Multiset.mem_add.mpr (.inr hsd)))
  · rw [hm]
    exact h.posMaster
  · have := h.counter
    rw [hm]
    omega
  · rw [hm]
    exact (Int.add_le_add_right hle _).trans h.limit

def Act.noConn : Act n → Bool
  | getConn _ false => true
  | _ => false

def Act.stray : Act n → Bool
  | leave => true
  | _ => false

theorem Balanced.goto {pc : WorkerPc}
    (hheld : pc.held = (s.worker w).held) (hdue : (s.worker w).due + lost = pc.due + lost') :
    Balanced maxclients lost' strays (s.goto w pc) := by
  have hat : (s.goto w pc).atWorker w = s.atWorker w := by
    simp only [State.atWorker, State.goto, update_self, hheld]
  refine h.at_worker w rfl (fun _ _ => rfl) (fun v hv => update_of_ne hv _ _) ?_ ?_ ?_ le_rfl
  · rw [hat]
    rfl
  · rw [hat]
    exact fun _ h => h
  · simp only [State.goto, update_self]
    omega

theorem Balanced.close {pc : WorkerPc}
    (hw : (s.worker w).held = {sd}) (hpc : pc.held = 0) (hdue : (s.worker w).due + 1 = pc.due) :
    Balanced maxclients lost strays { s.goto w pc with opened := s.opened.erase sd } := by
  have hmem : sd ∈ s.opened := h.mem_opened (.inr ⟨w, by simp [State.atWorker, hw]⟩)
  refine h.at_worker w rfl (fun _ _ => rfl) (fun v hv => update_of_ne hv _ _) ?_ ?_ ?_ le_rfl
  · simp only [State.atWorker, State.goto, update_self, hw, hpc]
    rw [← erase_val_add hmem]
    abel
  · intro x hx
    simp only [State.atWorker, State.goto, update_self, hpc, add_zero] at hx
    rcases Multiset.mem_add.mp hx with hx | hx
    · simp [State.atWorker, hx]
    · simp [hx]
  · have hcard := Finset.card_erase_add_one hmem
    simp only [State.goto, update_self]
    omega

/-- `csul_pop`: the unit goes from the queue to the worker. -/
theorem Balanced.pop {rest : List ℕ} (hw : s.worker w = .idle) (hq : s.csul w = sd :: rest) :
    Balanced maxclients lost strays
      { s.goto w (.getConn sd) with csul := update s.csul w rest } := by
  have hat : ↑rest + (WorkerPc.getConn sd).held = s.atWorker w := by
    rw [State.atWorker, hw, hq, ← Multiset.cons_coe, ← Multiset.singleton_add]
    exact (add_comm _ _).trans (add_zero _).symm
  refine h.at_worker w rfl (fun v hv => update_of_ne hv _ _) (fun v hv => update_of_ne hv _ _)
    ?_ ?_ ?_ le_rfl <;>
    simp only [State.goto, State.atWorker, update_self] at hat ⊢
  · rw [hat]
  · rw [hat]
    exact fun _ h => h
  · rw [hw]
    rfl

theorem Balanced.createClient (hw : s.worker w = .createClient sd) :
    Balanced maxclients lost strays { s.goto w .register with clients := sd ::ₘ s.clients } := by
  refine h.at_worker w rfl (fun _ _ => rfl) (fun v hv => update_of_ne hv _ _) ?_ ?_ ?_ le_rfl <;>
    simp only [State.atWorker, State.goto, update_self, hw, WorkerPc.held]
  · rw [← Multiset.singleton_add]
    abel
  · intro x hx
    simp only [Multiset.mem_add, Multiset.mem_cons, Multiset.mem_singleton, add_zero] at hx ⊢
    tauto
  · rfl

theorem Balanced.freeClient (hw : s.worker w = .idle) (hsd : sd ∈ s.clients) :
    Balanced maxclients lost strays
      { s.goto w (.put sd) with clients := s.clients.erase sd } := by
  refine h.at_worker w rfl (fun _ _ => rfl) (fun v hv => update_of_ne hv _ _) ?_ ?_ ?_ le_rfl <;>
    simp only [State.atWorker, State.goto, update_self, hw, WorkerPc.held]
  · conv_rhs => rw [← Multiset.cons_erase hsd, ← Multiset.singleton_add]
    abel
  · intro x hx
    simp only [Multiset.mem_add, Multiset.mem_singleton, add_zero] at hx ⊢
    rcases hx with (hx | rfl) | hx
    · exact .inl hx
    · exact .inr hsd
    · exact .inr (Multiset.mem_of_mem_erase hx)
  · rfl

/-- `update_curr_clients_sub(1)`, for a socket that was closed before. -/
theorem Balanced.sub (hw : s.worker w = .sub) :
    Balanced maxclients lost strays { s.goto w .idle with counter := s.counter - 1 } := by
  refine h.at_worker w rfl (fun _ _ => rfl) (fun v hv => update_of_ne hv _ _) ?_ ?_ ?_
    (Int.sub_le_self _ (by decide)) <;>
    simp only [State.atWorker, State.goto, update_self, hw, WorkerPc.held]
  · exact fun _ h => h
  · simp only [WorkerPc.due]
    omega

theorem Balanced.pos_put (hw : s.worker w = .put sd) :
    0 < sd :=
  h.pos sd (Multiset.mem_add.mpr (.inl (Multiset.mem_sum.mpr
    ⟨w, Finset.mem_univ w, by simp [State.atWorker, hw, WorkerPc.held]⟩)))

theorem Balanced.workerStep {a : Act n}
    (hs : workerStep s a = some s') : Balanced maxclients (lost + a.noConn.toNat) strays s' := by
  cases a <;> simp only [Connection.workerStep, reduceCtorEq] at hs
  case pop =>
    split at hs <;> cases hs
    exact h.pop ‹_› ‹_›
  case getConn ok =>
    split at hs <;> cases hs
    next hw =>
      cases ok <;> refine h.goto (by rw [hw]; rfl) ?_ <;> rw [hw]
      · simp only [Act.noConn, WorkerPc.due, Bool.false_eq_true, if_false, Bool.toNat_true]
        omega
      · rfl
  case closeSd =>
    split at hs <;> cases hs
    next hw => exact h.close (by rw [hw]; rfl) rfl (by rw [hw]; rfl)
  case nonblock ok =>
    split at hs <;> cases hs
    next hw => cases ok <;> exact h.goto (by rw [hw]; rfl) (by rw [hw]; rfl)
  case createClient ok =>
    split at hs
    next hw =>
      cases ok <;> cases hs
      · exact h.goto (by rw [hw]; rfl) (by rw [hw]; rfl)
      · exact h.createClient hw
    next => cases hs
  case register =>
    split at hs <;> cases hs
    next hw => exact h.goto (by rw [hw]; rfl) (by rw [hw]; rfl)
  case freeClient =>
    split at hs <;> cases hs
    next hw => exact h.freeClient hw.1 hw.2
  case close =>
    split at hs
    next hw =>
      rw [if_pos (h.pos_put hw)] at hs
      cases hs
      exact h.close (by rw [hw]; rfl) rfl (by rw [hw]; rfl)
    next => cases hs
  case sub =>
    split at hs <;> cases hs
    exact h.sub ‹_›

theorem Balanced.at_master {opened : Finset ℕ} {counter : ℤ} {pc : MasterPc}
    (hheld : pc.held + Multiset.replicate strays' 0 + s.opened.val =
      s.master.held + Multiset.replicate strays 0 + opened.val)
    (hpos : ∀ sd, pc = .alloc sd ∨ pc = .push sd → 0 < sd)
    (hcounter : counter + pc.uncounted + strays' + s.opened.card =
      s.counter + s.master.uncounted + strays + opened.card)
    (hlimit : counter + pc.admitted ≤ max 0 maxclients) :
    Balanced maxclients lost strays'
      { s with opened := opened, counter := counter, master := pc } where
  held := by
    refine add_right_cancel (b := s.master.held + Multiset.replicate strays 0) ?_
    calc pc.held + ∑ w, s.atWorker w + s.clients + Multiset.replicate strays' 0 +
          (s.master.held + Multiset.replicate strays 0)
        = pc.held + Multiset.replicate strays' 0 +
          (s.master.held + ∑ w, s.atWorker w + s.clients + Multiset.replicate strays 0) := by abel
      _ = opened.val + (s.master.held + Multiset.replicate strays 0) := by
          rw [h.held, hheld]; abel
  pos := h.pos
  posMaster := hpos
  counter := by
    have := h.counter
    dsimp only at this ⊢
    omega
  limit := hlimit

theorem Balanced.closeMaster (hm : s.master.held = {sd}) (hun : s.master.uncounted = 1) :
    Balanced maxclients lost strays { s with opened := s.opened.erase sd, master := .idle } := by
  have hmem : sd ∈ s.opened := h.mem_opened (.inl (by simp [hm]))
  have hcard := Finset.card_erase_add_one hmem
  have hlimit := h.limit
  have hadm : 0 ≤ s.master.admitted := by
    cases s.master <;> simp [MasterPc.admitted]
  refine h.at_master ?_ (by simp) ?_ ?_
  · rw [← erase_val_add hmem, hm]
    simp only [MasterPc.held]
    abel
  · rw [hun]
    simp only [MasterPc.uncounted]
    omega
  · simp only [MasterPc.admitted]
    omega

/-- The master goes on with the socket it has, or with none. -/
theorem Balanced.gotoMaster {pc : MasterPc}
    (hheld : pc.held = s.master.held) (hun : pc.uncounted = s.master.uncounted)
    (hpos : ∀ sd, pc = .alloc sd ∨ pc = .push sd → 0 < sd)
    (hlimit : s.counter + pc.admitted ≤ max 0 maxclients) :
    Balanced maxclients lost strays { s with master := pc } :=
  h.at_master (by rw [hheld]) hpos (by rw [hun]) hlimit

theorem Balanced.accept (hm : s.master = .idle)
    (hsd : sd ∉ s.opened) : Balanced maxclients lost strays
      { s with opened := insert sd s.opened, master := .accepted sd } := by
  have hlimit := h.limit
  rw [hm] at hlimit
  refine h.at_master ?_ (by simp) ?_ hlimit
  · rw [Finset.insert_val_of_notMem hsd, hm, ← Multiset.singleton_add]
    simp only [MasterPc.held]
    abel
  · rw [Finset.card_insert_of_notMem hsd, hm]
    simp only [MasterPc.uncounted]
    omega

/-- Only a socket accepted while the counter was below `maxclients` goes on. -/
theorem Balanced.check (hm : s.master = .accepted sd) :
    Balanced maxclients lost strays
      { s with master := if maxclients ≤ s.counter then .refuse sd else .returned sd } := by
  have hlimit := h.limit
  rw [hm] at hlimit
  split_ifs with hmax
  · exact h.gotoMaster (by rw [hm]; rfl) (by rw [hm]; rfl) (by simp) hlimit
  · refine h.gotoMaster (by rw [hm]; rfl) (by rw [hm]; rfl) (by simp) ?_
    simp only [MasterPc.admitted]
    omega

/-- Descriptor 0 is left open, and never counted. -/
theorem Balanced.leave (hm : s.master = .returned 0) :
    Balanced maxclients lost (strays + 1) { s with master := .idle } := by
  have hlimit := h.limit
  rw [hm] at hlimit
  refine h.at_master ?_ (by simp) ?_ ?_
  · rw [hm]
    simp only [MasterPc.held, Multiset.replicate_succ, ← Multiset.singleton_add]
    abel
  · rw [hm]
    simp only [MasterPc.uncounted]
    omega
  · simp only [MasterPc.admitted] at hlimit ⊢
    omega

theorem Balanced.alloc (hm : s.master = .alloc sd) (ok : Bool) : Balanced maxclients lost strays
      { s with master := if ok then .push sd else .drop sd } := by
  have hsd := h.posMaster sd (.inl hm)
  have hlimit := h.limit
  rw [hm] at hlimit
  cases ok
  · refine h.gotoMaster (by rw [hm]; rfl) (by rw [hm]; rfl) (by simp) ?_
    simp only [MasterPc.admitted, Bool.false_eq_true, if_false] at hlimit ⊢
    omega
  · exact h.gotoMaster (by rw [hm]; rfl) (by rw [hm]; rfl) (by simpa using hsd) hlimit

end

theorem sum_atWorker_push (s : State n) (tid : Fin n) (sd : ℕ) :
    ∑ v, (↑(update s.csul tid (s.csul tid ++ [sd]) v) + (s.worker v).held : Multiset ℕ) =
      {sd} + ∑ v, s.atWorker v := by
  have hself : (↑(update s.csul tid (s.csul tid ++ [sd]) tid) +
      (s.worker tid).held : Multiset ℕ) = {sd} + s.atWorker tid := by
    rw [update_self, ← Multiset.coe_add, State.atWorker, Multiset.coe_singleton]
    abel
  have hsum := sum_change tid (f := fun v => (↑(update s.csul tid (s.csul tid ++ [sd]) v) +
    (s.worker v).held : Multiset ℕ)) (g := s.atWorker) fun v hv => by
      rw [update_of_ne hv, State.atWorker]
  refine add_right_cancel (b := s.atWorker tid) (hsum.trans ?_)
  rw [hself]
  abel

section

variable (h : Balanced maxclients lost strays s)

include h

/-- `csul_push`: the socket goes from the master to the queue of a worker. -/
theorem Balanced.push (hm : s.master = .push sd) (tid : Fin n) : Balanced maxclients lost strays
      { s with
        lastWorkerThread := tid, csul := update s.csul tid (s.csul tid ++ [sd])
        master := .notify } := by
  have hsd := h.posMaster sd (.inr hm)
  have hlimit := h.limit
  have hheld := h.held
  have hcounter := h.counter
  rw [hm] at hlimit hheld hcounter
  refine ⟨?_, ?_, by simp, hcounter, hlimit⟩
  · rw [← hheld]
    simp only [State.atWorker, sum_atWorker_push, MasterPc.held]
    abel
  · intro x hx
    simp only [State.atWorker, sum_atWorker_push, add_assoc] at hx
    rcases Multiset.mem_add.mp hx with hx | hx
    · rwa [Multiset.mem_singleton.mp hx]
    · exact h.pos x hx

/-- `update_curr_clients_add(1)`. -/
theorem Balanced.count (hm : s.master = .count) :
    Balanced maxclients lost strays { s with counter := s.counter + 1, master := .idle } := by
  have hlimit := h.limit
  rw [hm] at hlimit
  refine h.at_master (by rw [hm]; rfl) (by simp) ?_ ?_
  · rw [hm]
    simp only [MasterPc.uncounted]
    omega
  · simp only [MasterPc.admitted] at hlimit ⊢
    omega

theorem Balanced.masterStep [NeZero n] {a : Act n} (hs : masterStep maxclients s a = some s') :
    Balanced maxclients lost (strays + a.stray.toNat) s' := by
  have hlimit := h.limit
  cases a <;> simp only [Connection.masterStep, reduceCtorEq] at hs
  case accept sd =>
    cases sd <;> simp only [ite_none_right_eq_some, some.injEq] at hs
    · exact hs.2 ▸ h
    · obtain ⟨⟨hm, hsd⟩, rfl⟩ := hs
      exact h.accept hm hsd
  case check =>
    split at hs <;> cases hs
    exact h.check ‹_›
  case refuse =>
    split at hs <;> cases hs
    next hm => exact h.closeMaster (by rw [hm]; rfl) (by rw [hm]; rfl)
  case dispatch =>
    split at hs <;> [skip; cases hs]
    next hm =>
      split_ifs at hs with hsd
      cases hs
      rw [hm] at hlimit
      exact h.gotoMaster (by rw [hm]; rfl) (by rw [hm]; rfl) (by simpa using hsd) hlimit
  case leave =>
    split at hs <;> [skip; cases hs]
    next sd hm =>
      split_ifs at hs with hsd
      cases hs
      obtain rfl : sd = 0 := by omega
      exact h.leave hm
  case alloc =>
    split at hs <;> cases hs
    exact h.alloc ‹_› _
  case drop =>
    split at hs <;> cases hs
    next hm => exact h.closeMaster (by rw [hm]; rfl) (by rw [hm]; rfl)
  case push =>
    split at hs <;> cases hs
    exact h.push ‹_› _
  case notify =>
    split at hs <;> cases hs
    next hm =>
      rw [hm] at hlimit
      exact h.gotoMaster (by rw [hm]; rfl) (by rw [hm]; rfl) (by simp) hlimit
  case count =>
    split at hs <;> cases hs
    exact h.count ‹_›

end

theorem Balanced.init [NeZero n] : Balanced maxclients 0 0 (init : State n) where
  held := by simp [Connection.init, State.atWorker, MasterPc.held, WorkerPc.held]
  pos := by simp [Connection.init, State.atWorker, WorkerPc.held]
  posMaster := by simp [Connection.init]
  counter := by simp [Connection.init, MasterPc.uncounted, WorkerPc.due]
  limit := by simp [Connection.init, MasterPc.admitted]

theorem Balanced.step [NeZero n] {a : Act n} (h : Balanced maxclients lost strays s)
    (hs : step maxclients s a = some s') :
    Balanced maxclients (lost + a.noConn.toNat) (strays + a.stray.toNat) s' := by
  rcases or_eq_some_iff.mp hs with hm | ⟨-, hw⟩
  · have hno : a.noConn = false := by
      cases a <;> first | rfl | (simp [Connection.masterStep] at hm)
    have := h.masterStep hm
    rwa [hno]
  · have hno : a.stray = false := by
      cases a <;> first | rfl | (simp [Connection.workerStep] at hw)
    have := h.workerStep hw
    rwa [hno]

open Logic (Run)

/-- No thread is accepting, handing over or closing a connection. -/
def Quiet (s : State n) : Prop := s.master = .idle ∧ ∀ w, s.csul w = [] ∧ s.worker w = .idle

/-- In every quiet state the counter is the number of accepted sockets that are open, which is not
above `maxclients`, just if in every such state as many descriptors 0 were left open as `conn_get`
has failed. -/
theorem counter_eq_open_iff [NeZero n] (maxclients : ℤ)
    (r : Run (step maxclients) (init : State n)) :
    (∀ m, Quiet (r.state m) → (r.state m).counter = (r.state m).opened.card ∧
      ((r.state m).opened.card : ℤ) ≤ max 0 maxclients) ↔
    ∀ m, Quiet (r.state m) → r.count Act.noConn m = r.count Act.stray m := by
  refine forall₂_congr fun m hq => ?_
  have h : Balanced maxclients (r.count Act.noConn m) (r.count Act.stray m) (r.state m) :=
    r.invariant_count .init (fun _ _ _ _ _ h hs => h.step hs) m
  obtain ⟨hm, hw⟩ := hq
  have hdue : ∑ w, ((r.state m).worker w).due = 0 :=
    Finset.sum_eq_zero fun w _ => by rw [(hw w).2]; rfl
  have hcounter := h.counter
  have hlimit := h.limit
  rw [hm, hdue] at hcounter
  rw [hm] at hlimit
  simp only [MasterPc.uncounted, MasterPc.admitted, add_zero] at hcounter hlimit
  omega

def served : List (Act 1) :=
  [.accept (some 5), .check, .dispatch, .alloc true, .push, .notify, .pop 0, .count,
    .getConn 0 true,
    .nonblock 0 true, .createClient 0 true, .register 0 true, .freeClient 0 5, .close 0, .sub 0]

theorem counter_eq_open_served : ∃ r : Run (step 1) (init : State 1),
    (∀ m, Quiet (r.state m) → (r.state m).counter = (r.state m).opened.card) ∧
      r.act 12 = some (.freeClient 0 5) := by
  have hruns : (Logic.exec (step 1) (init : State 1) served).isSome = true := by decide
  refine ⟨Run.ofList served hruns, fun m hm => ?_, rfl⟩
  refine ((counter_eq_open_iff 1 (Run.ofList served hruns)).mpr (fun m _ => ?_) m hm).1
  rw [Run.count_ofList hruns (by decide), Run.count_ofList hruns (by decide)]

/-- `conn_get` fails: the socket is closed and stays counted, so that with `maxclients` at 1 no
connection is accepted any more. -/
theorem connection_stays_counted :
    ∃ s, Logic.exec (step 1) (init : State 1) [.accept (some 5), .check, .dispatch,
      .alloc true, .push, .notify, .count, .pop 0, .getConn 0 false, .closeSd 0] = some s ∧
      Quiet s ∧ s.opened = ∅ ∧ s.counter = 1 ∧
      (Logic.exec (step 1) s [.accept (some 5), .check]).map State.master = some (.refuse 5) := by
  refine ⟨_, rfl, ⟨rfl, by decide⟩, by decide, rfl, rfl⟩

/-- The sockets that the master, a queue, a worker or a client has. -/
def State.held (s : State n) : Multiset ℕ := s.master.held + ∑ w, s.atWorker w + s.clients

/-- Every open socket but descriptor 0 is held in one place, and no closed one is: none is leaked or
closed twice. -/
theorem sockets_held_once [NeZero n] (maxclients : ℤ)
    (r : Run (step maxclients) (init : State n)) (m sd : ℕ) :
    (r.state m).held.count (sd + 1) = if sd + 1 ∈ (r.state m).opened then 1 else 0 := by
  have h : Balanced maxclients (r.count Act.noConn m) (r.count Act.stray m) (r.state m) :=
    r.invariant_count .init (fun _ _ _ _ _ h hs => h.step hs) m
  have hcount := congrArg (Multiset.count (sd + 1)) h.held
  rw [Multiset.count_add, Multiset.count_replicate, if_neg (by omega), add_zero] at hcount
  exact hcount.trans (Multiset.count_eq_of_nodup (r.state m).opened.nodup)

theorem sockets_held_served : ∃ r :
    Run (step 1) (init : State 1), r.act 12 = some (.freeClient 0 5) ∧
    (r.state 13).held.count 5 = 1 :=
  ⟨.ofList served (by decide), rfl, (sockets_held_once 1 _ 13 4).trans (by decide)⟩

end Vire.Connection
