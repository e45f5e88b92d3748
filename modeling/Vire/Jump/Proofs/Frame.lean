import Vire.Jump.Proofs.Steps
import Vire.Jump.Proofs.Command
import Vire.Jump.Protocol

/-!
# What the handlers leave alone

A handler changes nothing that the threads share, except for the place of its own thread.  It
creates no client, gives no client another id, and a client whose history it does not extend keeps
its cache.
-/

namespace Vire.Jump

open Function List

variable {n : ℕ} {s s' s'' : Sys} {i : ℕ} {c : Cid} {e : Prop}

def Client.fixed (k : Client) : ℕ × ℤ × Sds × ClientType := (k.id, k.sd, k.peerid, k.type)

/-- What changes in a client only with its history. -/
def Client.carried (k : Client) : Cache × Bool := (k.cache, k.jump)

/-- What a handler of worker `i` leaves alone.  It extends no history unless `e`. -/
structure Kept (e : Prop) (i : ℕ) (s s' : Sys) : Prop where
  net : s'.net = s.net
  nextCid : s'.nextCid = s.nextCid
  hist : ∀ x, s.hist x <+: s'.hist x
  still : ¬ e → s'.hist = s.hist
  client : ∀ x k', s'.client x = some k' → ∃ k, s.client x = some k ∧ k'.fixed = k.fixed ∧
    (k'.curidx = k.curidx ∨ k'.curidx = i) ∧ (s'.hist x = s.hist x → k'.carried = k.carried)
  clients : ∀ j, j ≠ i → (s'.loop j).clients = (s.loop j).clients
  nextClientId : ∀ j, (s'.loop j).nextClientId = (s.loop j).nextClientId

theorem Kept.refl (i : ℕ) (s : Sys) : Kept e i s s :=
  ⟨rfl, rfl, fun _ => prefix_rfl, fun _ => rfl, fun _ k h => ⟨k, h, rfl, .inl rfl, fun _ => rfl⟩,
    fun _ _ => rfl, fun _ => rfl⟩

theorem Kept.worker (h : Kept e i s s') : s'.worker = s.worker := congrArg Net.worker h.net

theorem prefix_squeeze {α : Type*} {l1 l2 l3 : List α} (h : l1 <+: l2) (h' : l2 <+: l3)
    (he : l3 = l1) : l2 = l1 :=
  (h.eq_of_length (le_antisymm h.length_le (he ▸ h'.length_le))).symm

section

variable (h : Kept e i s s')

include h

theorem Kept.trans (h' : Kept e i s' s'') : Kept e i s s'' := by
  refine ⟨h'.net.trans h.net, h'.nextCid.trans h.nextCid, fun x => (h.hist x).trans (h'.hist x),
    fun he => (h'.still he).trans (h.still he), fun x k'' hk'' => ?_,
    fun j hj => (h'.clients j hj).trans (h.clients j hj),
    fun j => (h'.nextClientId j).trans (h.nextClientId j)⟩
  obtain ⟨k', hk', hfix', hc', hcar'⟩ := h'.client x k'' hk''
  obtain ⟨k, hk, hfix, hc, hcar⟩ := h.client x k' hk'
  refine ⟨k, hk, hfix'.trans hfix, ?_, fun he => ?_⟩
  · rcases hc' with hc' | hc'
    · rwa [hc']
    · exact .inr hc'
  · have he' := prefix_squeeze (h.hist x) (h'.hist x) he
    exact (hcar' (he.trans he'.symm)).trans (hcar he')

theorem Kept.hist_ne (h' : Kept e i s' s'') {x : Cid}
    (hne : s'.hist x ≠ s.hist x) : s''.hist x ≠ s.hist x :=
  fun he => hne (prefix_squeeze (h.hist x) (h'.hist x) he)

variable {f : Client → Client}

theorem Kept.setClient (hfix : ∀ k, (f k).fixed = k.fixed)
    (hcur : ∀ k, (f k).curidx = k.curidx ∨ (f k).curidx = i)
    (hcar : s'.hist c = s.hist c → ∀ k, (f k).carried = k.carried) :
    Kept e i s (s'.setClient c f) := by
  refine { h with client := fun x k' hk' => ?_ }
  by_cases hx : x = c
  · subst hx
    rw [Sys.setClient_self, Option.map_eq_some_iff] at hk'
    obtain ⟨k1, hk1, rfl⟩ := hk'
    obtain ⟨k, hk, hf, hc, hca⟩ := h.client x k1 hk1
    refine ⟨k, hk, (hfix k1).trans hf, ?_, fun he => (hcar he k1).trans (hca he)⟩
    rcases hcur k1 with hc' | hc'
    · rwa [hc']
    · exact .inr hc'
  · rw [Sys.setClient_ne _ _ _ hx] at hk'
    exact h.client x k' hk'

theorem Kept.write
    (hf : ∀ k, ((f k).fixed, (f k).curidx, (f k).carried) = (k.fixed, k.curidx, k.carried)) :
    Kept e i s (s'.setClient c f) :=
  h.setClient (fun k => congrArg Prod.fst (hf k)) (fun k => .inl (congrArg (·.2.1) (hf k)))
    fun _ k => congrArg (·.2.2) (hf k)

theorem Kept.advance (hne : s'.hist c ≠ s.hist c)
    (hf : ∀ k, ((f k).fixed, (f k).curidx) = (k.fixed, k.curidx)) : Kept e i s (s'.setClient c f) :=
  h.setClient (fun k => congrArg Prod.fst (hf k)) (fun k => .inl (congrArg Prod.snd (hf k)))
    fun he => absurd he hne

theorem Kept.setLoop {f : EventLoop → EventLoop}
    (hf : ∀ l, (f l).nextClientId = l.nextClientId) : Kept e i s (s'.setLoop i f) := by
  refine { h with clients := fun j hj => ?_, nextClientId := fun j => ?_ }
  · rw [Sys.setLoop_ne _ _ _ hj]
    exact h.clients j hj
  · by_cases hj : j = i
    · subst hj
      rw [Sys.setLoop_self, hf]
      exact h.nextClientId j
    · rw [Sys.setLoop_ne _ _ _ hj]
      exact h.nextClientId j

end

theorem Kept.log (h : Kept True i s s') (c : Cid) (es : List Event) :
    Kept True i s (s'.log c es) := by
  refine h.trans { Kept.refl (e := True) i s' with
    hist := fun x => ?_, still := fun he => absurd trivial he, client := ?_ }
  · by_cases hx : x = c
    · subst hx
      rw [Sys.log_self]
      exact prefix_append ..
    · rw [Sys.log_ne _ _ _ hx]
  · exact fun _ k h => ⟨k, h, rfl, .inl rfl, fun _ => rfl⟩

theorem Sys.log_hist_ne (s : Sys) (c : Cid) {es : List Event} (hes : es ≠ []) :
    (s.log c es).hist c ≠ s.hist c := by
  simpa using hes

theorem Kept.drop (h : Kept e i s s') (c : Cid) :
    Kept e i s { s' with client := update s'.client c none } := by
  refine { h with client := fun x k hk => h.client x k ?_ }
  by_cases hx : x = c
  · subst hx
    simp at hk
  · simpa [hx] using hk

theorem Sys.setWorker_net (h : s'.net = s.net) (i : ℕ) (pc : WorkerPc) :
    (s'.setWorker i pc).net = (s.setWorker i pc).net := by
  simp only [Sys.net, Sys.setWorker, Net.mk.injEq] at h ⊢
  simp [h]

theorem Kept.setWorker (h : Kept e i s s') (j : ℕ) (pc : WorkerPc) :
    Kept e i (s.setWorker j pc) (s'.setWorker j pc) :=
  { h with net := Sys.setWorker_net h.net j pc }

theorem Kept.foldl {f : Sys → Cid → Sys} (hf : ∀ s c, Kept e i s (f s c)) (xs : List Cid)
    (s : Sys) : Kept e i s (xs.foldl f s) := by
  induction xs generalizing s with
  | nil => exact .refl i s
  | cons x xs ih => exact (hf s x).trans (ih (f s x))

theorem freeClient_kept (s : Sys) (i : ℕ) (c : Cid) : Kept e i s (freeClient s i c) := by
  unfold freeClient
  split
  · exact .refl i s
  · exact .drop (.setLoop (.refl i s) (by intro; rfl)) c

theorem freeClientAsync_kept (s : Sys) (i : ℕ) (c : Cid) : Kept e i s (freeClientAsync s i c) := by
  unfold freeClientAsync
  split
  · exact .refl i s
  · split
    · exact .refl i s
    · exact .setLoop (.write (.refl i s) (by intro; rfl)) (by intro; rfl)

theorem prepareClientToWrite_kept (s : Sys) (i : ℕ) (c : Cid) :
    Kept e i s (prepareClientToWrite s i c).1 := by
  unfold prepareClientToWrite
  split
  · exact .refl i s
  · split_ifs
    · exact .refl i s
    · dsimp only
      exact .setLoop (.write (.refl i s) (by intro; rfl)) (by intro; rfl)
    · exact .refl i s

theorem addReply_kept (s : Sys) (i : ℕ) (c : Cid) (rep : Reply) :
    Kept True i s (addReply s i c rep) := by
  have h := prepareClientToWrite_kept (e := True) s i c
  unfold addReply
  split
  · next heq => rw [heq] at h; exact h
  · next heq =>
    rw [heq] at h
    split
    · exact h
    · split_ifs
      · exact h
      · exact .log (.write h (by intro; rfl)) c _

theorem killLoop_kept (xs : List Cid) (acc : Sys × ClientKillData) :
    Kept e i acc.1 (killLoop i c xs acc).1 := by
  induction xs generalizing acc with
  | nil => exact .refl i acc.1
  | cons x xs ih =>
    obtain ⟨s, ckd⟩ := acc
    rw [killLoop_cons]
    refine Kept.trans ?_ (ih _)
    rcases killOne_cases (i := i) (c := c) x s ckd with ⟨h, -⟩ | ⟨h, -⟩
    · rw [h]
      exact .refl i s
    · rw [h]
      exact freeClient_kept s i x

theorem stepEvents_ne_nil (k : Client) (r : Request) : stepEvents i k r ≠ [] := by
  simp [stepEvents]

theorem jumpOn_kept (s : Sys) (k : Client) (r : Request) (P : Cache) :
    Kept True i s ((s.log c (stepEvents i k r)).setClient c (jumpOn n P)) :=
  .advance (.log (.refl i s) c _) (s.log_hist_ne c (stepEvents_ne_nil k r)) (by intro; rfl)

theorem jumpOn_hist_ne (s : Sys) (k : Client) (r : Request) (P : Cache) :
    ((s.log c (stepEvents i k r)).setClient c (jumpOn n P)).hist c ≠ s.hist c :=
  s.log_hist_ne c (stepEvents_ne_nil k r)

theorem killStep_kept (s : Sys) (k : Client) (r : Request) (ckd : ClientKillData) :
    Kept True i s (killStep n s i c k r ckd) := by
  have h1 := jumpOn_kept (n := n) (i := i) (c := c) s k r (.kill ckd)
  have hne := jumpOn_hist_ne (n := n) (i := i) (c := c) s k r (.kill ckd)
  simp only [killStep]
  generalize (s.log c (stepEvents i k r)).setClient c (jumpOn n (.kill ckd)) = s1 at *
  have h2 := killLoop_kept (i := i) (c := c) (e := True) (s1.loop i).clients (s1, ckd)
  generalize killLoop i c (s1.loop i).clients (s1, ckd) = acc at *
  have hne2 := h1.hist_ne h2 hne
  have h3 := addReply_kept acc.1 i c (killReply r acc.2)
  split_ifs
  · exact .advance ((h1.trans h2).trans h3) ((h1.trans h2).hist_ne h3 hne2) (by intro; rfl)
  · exact .advance (h1.trans h2) hne2 (by intro; rfl)

theorem clientList_kept (s : Sys) (k : Client) (r : Request) :
    Kept True i s (clientList n s i c k r) := by
  have h1 : Kept True i s (s.log c (stepEvents i k r)) := .log (.refl i s) c _
  have hne := s.log_hist_ne c (stepEvents_ne_nil (i := i) k r)
  simp only [clientList]
  split_ifs
  · have h2 := addReply_kept (s.log c (stepEvents i k r)) i c (.clientList (cachedLines k ++
      getAllClientsInfoString (s.log c (stepEvents i k r)) i))
    exact .advance (h1.trans h2) (h1.hist_ne h2 hne) (by intro; rfl)
  · exact .advance h1 hne (by intro; rfl)

theorem commandStats_kept (s : Sys) (k : Client) (r : Request) :
    Kept True i s (commandStats n s i c k r) := by
  simp only [commandStats]
  generalize addStats _ _ = all
  have h1 := jumpOn_kept (n := n) (i := i) (c := c) s k r (.stats all)
  split_ifs
  · exact .trans (.advance h1 (jumpOn_hist_ne s k r _) (by intro; rfl)) (addReply_kept _ i c _)
  · exact h1

theorem proc_kept (s : Sys) : Kept True i s (proc n s i c) := by
  unfold proc
  split
  · exact .refl i s
  split
  · exact .refl i s
  split
  · unfold clientCommand
    split
    · exact .refl i s
    split_ifs
    · exact clientList_kept ..
    · unfold clientKill
      split_ifs
      · split
        · exact addReply_kept ..
        · exact killStep_kept ..
      · split
        · exact killStep_kept ..
        · exact .refl i s
    · exact addReply_kept ..
  · unfold commandCommand
    split
    · split_ifs
      · exact commandStats_kept ..
      · exact addReply_kept ..
    · exact addReply_kept ..
  · exact .write (addReply_kept s i c .ok) (by intro; rfl)
  · split_ifs
    · exact addReply_kept ..
    · exact .refl i s

theorem processCommand_kept (s : Sys) (r : Request) : Kept True i s (processCommand n s i c r) := by
  have h := ((Kept.refl i s).write (c := c)
    (f := fun k => { k with cmd := some r, querybuf := k.querybuf.tail }) fun _ => rfl).trans
    (proc_kept (n := n) (c := c) _)
  unfold processCommand
  split
  · exact h
  · exact .setLoop h (by intro; rfl)

theorem writeToClient_kept (s : Sys) (i : ℕ) (c : Cid) (res : WriteResult) :
    Kept e i s (writeToClient s i c res).1 := by
  unfold writeToClient
  split
  · exact .refl i s
  split
  · exact freeClient_kept ..
  · have h (rest : List Reply) : Kept e i s (s.setClient c fun k => { k with reply := rest }) :=
      .write (.refl i s) (by intro; rfl)
    dsimp only
    split_ifs
    · exact (h _).trans (freeClient_kept ..)
    · exact h _

theorem handlePendingWrite_kept (i : ℕ) (res : Cid → WriteResult) (ok : Cid → Bool) (s : Sys)
    (c : Cid) : Kept e i s (handlePendingWrite i res ok s c) := by
  have h1 : Kept e i s ((s.setClient c fun k => { k with pendingWrite := false }).setLoop i fun l =>
      { l with clientsPendingWrite := l.clientsPendingWrite.erase c }) :=
    .setLoop (.write (.refl i s) (by intro; rfl)) (by intro; rfl)
  have h2 := h1.trans (writeToClient_kept _ i c (res c))
  simp only [handlePendingWrite]
  split
  · next heq => rw [heq] at h2; exact h2
  · next heq =>
    rw [heq] at h2
    split
    · exact h2
    · split_ifs
      · exact h2.trans (freeClientAsync_kept ..)
      · exact h2

theorem freeAsyncOne_kept (i : ℕ) (s : Sys) (c : Cid) : Kept e i s (freeAsyncOne i s c) :=
  .setLoop (.trans (.write (.refl i s) (by intro; rfl)) (freeClient_kept _ i c)) (by intro; rfl)

theorem unlinkClientFromEventloop_kept (s : Sys) (i : ℕ) (c : Cid) :
    Kept e i s (unlinkClientFromEventloop s i c) := by
  unfold unlinkClientFromEventloop
  split
  · exact .refl i s
  · split
    · exact .write (.refl i s) (by intro; rfl)
    · exact .setLoop (.write (.refl i s) (by intro; rfl)) (by intro; rfl)

/-- The places of a worker that has no byte to act on and none to write. -/
def WorkerPc.quiet : WorkerPc → Bool
  | .gotByte _ _ | .pushed _ | .notify _ => false
  | _ => true

/-- Worker `i` runs a handler that ends in a quiet place. -/
def Handled (e : Prop) (i : ℕ) (s s' : Sys) : Prop :=
  ∃ pc : WorkerPc, pc.quiet = true ∧ Kept e i (s.setWorker i pc) s'

theorem Kept.handled (h : Kept e i s s') (hw : (s.worker i).quiet = true) : Handled e i s s' :=
  ⟨s.worker i, hw, by rwa [Sys.setWorker_eta]⟩

theorem afterInput_handled (s : Sys) (i : ℕ) (c : Cid) (k : Client) (linked ae : Bool) :
    Handled e i s (afterInput s i c k linked ae) := by
  unfold afterInput
  split_ifs
  · exact ⟨.dispatch c, rfl, .refl i _⟩
  · exact ⟨.idle, rfl, (freeClientAsync_kept s i c).setWorker i .idle⟩
  · exact ⟨.idle, rfl, .refl i _⟩

theorem processInput_handled (s : Sys) (i : ℕ) (c : Cid) (linked ae : Bool)
    (hw : s.worker i = .input c linked) : Handled True i s (processInput n s i c linked ae) := by
  unfold processInput
  split
  · exact ⟨.dead, rfl, .refl i _⟩
  split
  · next r _ _ _ =>
    have hp := processCommand_kept (n := n) (i := i) (c := c) s r
    dsimp only
    split
    · exact ⟨.dead, rfl, hp.setWorker i .dead⟩
    · split_ifs
      · obtain ⟨pc, hq, he⟩ := afterInput_handled (processCommand n s i c r) i c _ linked ae
        exact ⟨pc, hq, (hp.setWorker i pc).trans he⟩
      · exact hp.handled (by rw [hw]; rfl)
  · exact afterInput_handled ..

theorem arrive_handled (s : Sys) (i : ℕ) (c : Cid) (ae : Bool) :
    Handled True i s (arrive n s i c ae) := by
  have hp : Kept True i s (proc n (s.setClient c fun k =>
      { k with vel := some i, curidx := i, steps := k.steps + 1 }) i c) :=
    .trans (.setClient (.refl i s) (by intro; rfl) (by intro; exact .inr rfl)
      (by intros; rfl)) (proc_kept _)
  unfold arrive
  dsimp only
  split
  · exact ⟨.dead, rfl, hp.setWorker i .dead⟩
  · split_ifs
    · exact ⟨.dispatch c, rfl, hp.setWorker i (.dispatch c)⟩
    · have hl := (hp.setLoop (f := fun l => { l with clients := l.clients ++ [c] })
        fun _ => rfl).write (c := c) (f := fun k => { k with vel := some i }) fun _ => rfl
      unfold linkClientToEventloop
      split_ifs
      · exact ⟨.input c true, rfl, hl.setWorker i _⟩
      · exact ⟨.idle, rfl, (hl.trans (freeClient_kept _ i c)).setWorker i .idle⟩

theorem dispatchConnExist_kept (s : Sys) (i : ℕ) (c : Cid) (alloc : Bool) :
    (∃ k, s.client c = some k ∧ alloc = true ∧
      Kept e i { s.setWorker i (.pushed c) with cbsul := s.cbsul ++ [⟨k.taridx, .client c⟩] }
        (dispatchConnExist s i c alloc)) ∨
    Handled e i s (dispatchConnExist s i c alloc) := by
  unfold dispatchConnExist
  split
  · exact .inr ⟨.dead, rfl, .refl i _⟩
  · next k hk =>
    split_ifs with ha
    · have hu := unlinkClientFromEventloop_kept (e := e) s i c
      refine .inl ⟨k, hk, ha, { hu with net := ?_ }⟩
      have hnet := hu.net
      simp only [Sys.net, Sys.setWorker, Net.mk.injEq] at hnet ⊢
      simp [hnet]
    · exact .inr ⟨.idle, rfl, (freeClient_kept s i c).setWorker i .idle⟩
    · exact .inr ⟨.dead, rfl, .refl i _⟩

/-- What a step does to the queues, the streams and the places of the threads. -/
inductive Shift (n : ℕ) (s : Sys) : Act → Sys → Prop
  | master {a : Act} {s' : Sys} (ht : a.thread = none) (h : Steps n s a s') : Shift n s a s'
  | read {i : ℕ} {tag : Tag} {rest : List Tag} (hw : s.worker i = .idle)
      (hr : s.toWorker i = tag :: rest) : Shift n s (.read i true)
        { s.setWorker i (.gotByte tag true) with toWorker := update s.toWorker i rest }
  | readFail {i : ℕ} (hw : s.worker i = .idle) :
      Shift n s (.read i false) (s.setWorker i (.gotByte .c false))
  | quiet {a : Act} {i : ℕ} {pc : WorkerPc} (ht : a.thread = some i)
      (hw : (s.worker i).quiet = true) (hpc : pc.quiet = true) : Shift n s a (s.setWorker i pc)
  | popNone {i : ℕ} {tag : Tag} {real : Bool} {conn : NewConn} {ae : Bool}
      (hw : s.worker i = .gotByte tag real) (hq : tag = .b ∨ s.csul i = []) :
      Shift n s (.pop i conn ae) (s.setWorker i .idle)
  | popUnit {i : ℕ} {tag : Tag} {real : Bool} {conn : NewConn} {ae : Bool} {su : ConnSwapUnit}
      {rest : List ConnSwapUnit} {pc : WorkerPc} (hw : s.worker i = .gotByte tag real)
      (hq : s.csul i = su :: rest) (hpc : pc.quiet = true) :
      Shift n s (.pop i conn ae) ({ s with csul := update s.csul i rest }.setWorker i pc)
  | push {i : ℕ} {c : Cid} {alloc : Bool} {num : ℤ} (hw : s.worker i = .dispatch c) :
      Shift n s (.dispatch i alloc)
        { s.setWorker i (.pushed c) with cbsul := s.cbsul ++ [⟨num, .client c⟩] }
  | readCuridx {i : ℕ} {c : Cid} {junk : ℤ} (hw : s.worker i = .pushed c) :
      Shift n s (.readCuridx i junk)
        (s.setWorker i (.notify (((s.client c).map Client.curidx).getD junk)))
  | write {i w : ℕ} {idx : ℤ} (hw : s.worker i = .notify idx) (hat : workerAt n idx = some w) :
      Shift n s (.write i true)
        { s.setWorker i .idle with toMaster := update s.toMaster w (s.toMaster w ++ [.b]) }
  | writeFail {i : ℕ} {idx : ℤ} {ok : Bool} (hw : s.worker i = .notify idx)
      (hat : ok = true → workerAt n idx = none) : Shift n s (.write i ok) (s.setWorker i .idle)

/-- The steps that run commands. -/
def Act.runs : Act → Prop
  | .pop _ _ _ | .input _ _ => True
  | _ => False

/-- What a worker then does to its clients, before its next access to what the threads share. -/
inductive Follows (s : Sys) (a : Act) (s₁ : Sys) : Sys → Prop
  | refl : Follows s a s₁ s₁
  | kept {i : ℕ} {s' : Sys} (ht : a.thread = some i) (hk : Kept a.runs i s₁ s') :
      Follows s a s₁ s'
  | create {i : ℕ} (ht : a.thread = some i) (hw : s.worker i ≠ .idle) (sd : ℤ) (peerid : Sds) :
      Follows s a s₁ (createClient s₁ i sd peerid)

variable {a : Act} {s₁ : Sys}

theorem Follows.net (h : Follows s a s₁ s') : s'.net = s₁.net := by
  cases h with
  | refl | create => rfl
  | kept _ hk => exact hk.net

theorem Handled.shift (h : Handled a.runs i s s') (ht : a.thread = some i)
    (hw : (s.worker i).quiet = true) : ∃ s₁, Shift n s a s₁ ∧ Follows s a s₁ s' := by
  obtain ⟨pc, hpc, hk⟩ := h
  exact ⟨_, .quiet ht hw hpc, .kept ht hk⟩

theorem Kept.shift (h : Kept a.runs i s s') (ht : a.thread = some i) (hw : s.worker i = .idle) :
    ∃ s₁, Shift n s a s₁ ∧ Follows s a s₁ s' := by
  have hq : (s.worker i).quiet = true := by rw [hw]; rfl
  exact (h.handled hq).shift ht hq

theorem step_shift (hstep : step n s a = some s') : ∃ s₁, Shift n s a s₁ ∧ Follows s a s₁ s' := by
  have h := step_cases hstep
  cases step_cases hstep with
  | read hw hr => exact ⟨_, .read hw hr, .refl⟩
  | readFail hw => exact ⟨_, .readFail hw, .refl⟩
  | @pop i tag real conn ae hw =>
    unfold workerPop
    split
    · exact ⟨_, .popNone hw (.inl rfl), .refl⟩
    · next hq => exact ⟨_, .popNone hw (.inr hq), .refl⟩
    · next su rest _ hq =>
      split
      · exact ⟨_, .popUnit hw hq rfl, .refl⟩
      · exact ⟨_, .popUnit hw hq (rfl : WorkerPc.idle.quiet = true), .create rfl (by simp [hw]) _ _⟩
      · obtain ⟨pc, hpc, hk⟩ :=
          arrive_handled (n := n) { s with csul := update s.csul i rest } i _ ae
        exact ⟨_, .popUnit hw hq hpc, .kept rfl hk⟩
      · exact ⟨_, .popUnit hw hq rfl, .refl⟩
  | @dispatch i c alloc hw =>
    rcases dispatchConnExist_kept s i c alloc with ⟨k, -, -, hk⟩ | hk
    · exact ⟨_, .push hw, .kept rfl hk⟩
    · exact hk.shift rfl (by rw [hw]; rfl)
  | readCuridx hw => exact ⟨_, .readCuridx hw, .refl⟩
  | write hw =>
    unfold workerWrite
    split
    · next hat => exact ⟨_, .write hw hat, .refl⟩
    · next hat =>
        refine ⟨_, .writeFail hw fun hok => ?_, .refl⟩
        exact Option.eq_none_iff_forall_ne_some.mpr fun w he => hat w hok he
  | @readQuery i c inp hw =>
    cases inp with
    | closed => exact (freeClient_kept s i c).shift rfl hw
    | data rs =>
      refine Handled.shift ⟨.input c false, rfl, Kept.setWorker ?_ i _⟩ rfl (by rw [hw]; rfl)
      exact .write (.refl i s) (by intro; rfl)
  | input hw => exact Handled.shift (processInput_handled s _ _ _ _ hw) rfl (by rw [hw]; rfl)
  | sendReply hw => exact (writeToClient_kept ..).shift rfl hw
  | beforeSleep _ hw => exact (Kept.foldl (handlePendingWrite_kept _ _ _) _ _).shift rfl hw
  | cron _ hw => exact (Kept.foldl (freeAsyncOne_kept _) _ _).shift rfl hw
  | _ => exact ⟨_, .master rfl h, .refl⟩

theorem init_ranged (n ncmd : ℕ) : Ranged n (init ncmd) := by
  constructor <;> simp [init]

section

variable (h : Ranged n s)

include h

theorem Ranged.lt (hw : s.worker i ≠ .idle) : i < n := by
  by_contra hge
  exact hw (h.worker i (Nat.le_of_not_lt hge))

theorem Ranged.thread_lt (hstep : step n s a = some s') (ht : a.thread = some i) : i < n := by
  by_contra hge
  have hw := h.worker i (Nat.le_of_not_lt hge)
  have htw := h.toWorker i (Nat.le_of_not_lt hge)
  have hcl := h.clients i (Nat.le_of_not_lt hge)
  cases step_cases hstep <;> simp_all [Act.thread] <;> omega

theorem Ranged.kept (hi : i < n) (hk : Kept e i s s') : Ranged n s' := by
  cases s'
  obtain ⟨rfl, rfl, rfl, rfl, rfl, rfl, rfl⟩ := Net.mk.inj hk.net
  refine { h with curidx := fun x k' hk' => ?_, clients := fun j hj => ?_ }
  · obtain ⟨k, hk, -, hc | hc, -⟩ := hk.client x k' hk'
    · rw [hc]
      exact h.curidx x k hk
    · exact ⟨i, hi, hc⟩
  · rw [hk.clients j (by omega)]
    exact h.clients j hj

theorem Ranged.setWorker (hi : i < n) (pc : WorkerPc) :
    Ranged n (s.setWorker i pc) := by
  refine { h with worker := fun j hj => ?_ }
  rw [Sys.setWorker_ne _ _ _ (by omega)]
  exact h.worker j hj

theorem Ranged.createClient (hi : i < n) (sd : ℤ) (peerid : Sds) :
    Ranged n (createClient s i sd peerid) := by
  refine { h with curidx := fun x k hk => ?_, clients := fun j hj => ?_ }
  · by_cases hx : x = s.nextCid
    · subst hx
      simp only [Vire.Jump.createClient, update_self, Option.some.injEq] at hk
      subst hk
      exact ⟨i, hi, rfl⟩
    · simp only [Vire.Jump.createClient, update_of_ne hx] at hk
      exact h.curidx x k hk
  · simp only [Vire.Jump.createClient, Sys.setLoop, update_of_ne (show j ≠ i by omega)]
    exact h.clients j hj

end

theorem workerAt_lt {idx : ℤ} {w : ℕ} (h : workerAt n idx = some w) : w < n := by
  unfold workerAt at h
  split_ifs at h
  cases h
  omega

theorem Ranged.master (hn : 0 < n) (h : Ranged n s) (ht : a.thread = none) (hs : Steps n s a s') :
    Ranged n s' := by
  cases hs with
  | acceptFail => exact h
  | accept hm =>
    refine { h with notify := ?_, hold := by simp [dispatchConnNew] }
    rintro w tag ⟨⟩
    have hpos : (0 : ℤ) < n := by exact_mod_cast hn
    have h2 := Int.emod_lt_of_pos (s.lastWorkerThread + 1) hpos
    omega
  | @masterWrite w tag ok hm =>
    refine {
      h with toWorker :=
        fun j hj => ?_, notify := by simp [masterWrite], hold := by simp [masterWrite] }
    have hne : j ≠ w := by
      have := h.notify w tag hm
      omega
    cases ok
    · exact h.toWorker j hj
    · simpa [masterWrite, hne] using h.toWorker j hj
  | masterRead | masterReadFail => exact { h with notify := by simp, hold := by simp }
  | masterPop =>
    unfold masterPop
    split
    · next su rest hq _ =>
      have hcb := h.cbsul
      rw [hq] at hcb
      refine {
        h with notify := by simp, cbsul := fun x hx => hcb x (mem_cons_of_mem _ hx), hold := ?_ }
      rintro _ _ ⟨⟩
      exact hcb su mem_cons_self
    · exact { h with notify := by simp, hold := by simp }
  | masterPush =>
    unfold masterPush
    split
    · exact { h with notify := by simp, hold := by simp }
    · next hat =>
      refine { h with notify := ?_, hold := by simp }
      rintro w tag ⟨⟩
      exact workerAt_lt hat
  | _ => cases ht

theorem step_ranged (hn : 0 < n) (h : Ranged n s) (hstep : step n s a = some s') :
    Ranged n s' := by
  have hi : ∀ {i}, a.thread = some i → i < n := h.thread_lt hstep
  obtain ⟨s₁, hs, hf⟩ := step_shift hstep
  have h₁ : Ranged n s₁ := by
    cases hs with
    | master ht hs => exact h.master hn ht hs
    | @read i tag rest hw hr =>
      refine { h.setWorker (hi rfl) (.gotByte tag true) with toWorker := fun j hj => ?_ }
      have := hi (i := i) rfl
      simpa [show j ≠ i by omega] using h.toWorker j hj
    | quiet ht => exact h.setWorker (hi ht) _
    | readFail | popNone | readCuridx | writeFail => exact h.setWorker (hi rfl) _
    | @popUnit _ _ _ _ _ _ _ pc => exact { h.setWorker (hi rfl) pc with }
    | @push _ c =>
      refine { h.setWorker (hi rfl) (.pushed c) with cbsul := fun x hx => ?_ }
      rcases mem_append.mp hx with hx | hx
      · exact h.cbsul x hx
      · rw [mem_singleton.mp hx]
        rfl
    | write => exact { h.setWorker (hi rfl) .idle with }
  cases hf with
  | refl => exact h₁
  | kept ht hk => exact h₁.kept (hi ht) hk
  | create ht => exact h₁.createClient (hi ht) _ _

end Vire.Jump
