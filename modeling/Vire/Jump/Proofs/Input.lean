import Vire.Jump.Proofs.Ran

/-!
# Handlers that stay on one worker

Reading and running requests, sending replies and freeing clients keep the invariant: they only
touch clients of the worker that runs them.
-/

namespace Vire.Jump

open Function List

variable {n : ℕ} {pl pl' : Cid → Place} {s s' : Sys} {i w m : ℕ} {c : Cid} {k k' : Client}
  {r : Request} {K : Kind} {h : List Event} {st : Prop}

/-- The places a client can be left in by a step that neither drops nor loses it. -/
def Place.calm : Place → Bool
  | .busy _ | .visiting _ | .dropped | .lost => false
  | _ => true

theorem Between.calm_update (hB : Between st pl) {p : Place} (hp : p.calm = true)
    (hpl : ∀ x, x ≠ c → pl' x = pl x ∨ pl' x = .gone) (hc : pl' c = p) : Between st pl' := by
  have key : ∀ x, pl' x = pl x ∨ (pl' x).calm = true := by
    intro x
    by_cases hx : x = c
    · subst hx
      exact .inr (hc ▸ hp)
    · rcases hpl x hx with h | h
      · exact .inl h
      · exact .inr (h ▸ rfl)
  refine ⟨fun x j => ?_, fun x j => ?_, fun hst x => ⟨?_, ?_⟩⟩
  all_goals
    rcases key x with h | h
    · rw [h]
      first | exact hB.busy x j | exact hB.visiting x j | exact (hB.strict hst x).1 |
        exact (hB.strict hst x).2
    · intro he
      rw [he] at h
      exact absurd h Bool.false_ne_true

theorem Between.of_freed (hB : Between st pl) {q p : Place}
    (hf : Freed i c (update pl c q) pl') (hp : p.calm = true) :
    Between st (update pl' c p) := by
  refine hB.calm_update hp (fun x hx => ?_) (update_self c p pl')
  rw [update_of_ne hx]
  rcases hf x with h | ⟨-, -, h⟩
  · rw [update_of_ne hx] at h
    exact .inl h
  · exact .inr h

theorem Inv.input_rest (h : Inv n pl s) (hB : Between st pl) {b : Bool}
    (hw : s.worker i = .input c b) : pl c = .rest i :=
  (h.placed.input i c b hw).resolve_right (hB.busy c i)

theorem Inv.set_rest (h : Inv n pl s) (hc : pl c = .rest i) {f : Client → Client}
    {g : EventLoop → EventLoop} (hk : s.client c = some k) (hR : Rest n i (f k) (s.hist c))
    (hclients : (g (s.loop i)).clients = (s.loop i).clients)
    (hlists : Lists ((s.setClient c f).setLoop i g)) :
    Inv n pl ((s.setClient c f).setLoop i g) := by
  have hne : ∀ x, x ≠ c → ((s.setClient c f).setLoop i g).client x = s.client x :=
    fun x hx => s.setClient_ne c f hx
  have hself : ((s.setClient c f).setLoop i g).client c = some (f k) := by simp [hk]
  have hcl : ∀ j, (((s.setClient c f).setLoop i g).loop j).clients = (s.loop j).clients :=
    setLoop_field (s.setClient c f) i EventLoop.clients hclients
  refine ⟨fun x => ?_, hlists, ?_⟩
  · by_cases hx : x = c
    · subst hx
      rw [hc, hself]
      exact ⟨(h.rest hc).1, f k, rfl, hR⟩
    · rw [hne x hx]
      exact h.phase x
  · exact h.placed.of_home_same rfl rfl hne (fun _ _ => rfl) (by rw [hc]; rfl) (by simp [hc]) hcl

theorem Inv.write_rest (h : Inv n pl s) (hc : pl c = .rest i) {f : Client → Client}
    (hf : ∀ k, (f k).core = k.core ∧ (f k).pendingWrite = k.pendingWrite ∧
      (f k).curidx = k.curidx ∧ (f k).steps = k.steps ∧ (f k).jump = k.jump ∧
      (f k).cache = k.cache) : Inv n pl (s.setClient c f) := by
  obtain ⟨-, k, hk, hR⟩ := h.rest hc
  obtain ⟨hcore, hp, hcur, hst, hj, hca⟩ := hf k
  have hv : (f k).vel = k.vel := congrArg Core.vel hcore
  have hR' : Rest n i (f k) (s.hist c) :=
    ⟨hv.trans hR.vel, hcur.trans hR.curidx, hst.trans hR.steps, hj.trans hR.jump,
      hca.trans hR.cache, hR.sd.trans_eq (congrArg Core.sd hcore).symm, hR.hist⟩
  rw [← Sys.setLoop_id (s.setClient c f) i]
  exact h.set_rest hc hk hR' rfl ⟨h.lists.pendingWrite.set hk hv hp rfl,
    h.lists.toClose.set hk hv (congrArg Core.closeAsap hcore) rfl,
    h.lists.unblocked.set hk hv (congrArg Core.unblocked hcore) rfl⟩

theorem Inv.freeClientAsync (h : Inv n pl s) (hc : pl c = .rest i) :
    Inv n pl (freeClientAsync s i c) := by
  obtain ⟨-, k, hk, hR⟩ := h.rest hc
  simp only [Vire.Jump.freeClientAsync, hk]
  split_ifs with hca
  · exact h
  · refine h.set_rest hc hk { hR with } rfl
      ⟨h.lists.pendingWrite.set hk rfl rfl rfl, ?_, h.lists.unblocked.set hk rfl rfl rfl⟩
    refine h.lists.toClose.insert (q := { k with closeAsap := true })
      (fun x hx => s.setClient_ne c _ hx) hk (by simpa using hca) (by simp [hk])
        hR.vel rfl (.inr ?_)
      fun j hj => ?_
    · simp
    · simp [Sys.setLoop_ne _ _ _ hj]

theorem freeClient_worker (s : Sys) (i : ℕ) (c : Cid) : (freeClient s i c).worker = s.worker :=
  congrArg Net.worker (freeClient_net s i c)

theorem Inv.free_between (h : Inv n pl s) (hB : Between st pl) (hc : pl c = .rest i)
    (hidle : ∀ j b, s.worker j ≠ .input c b) :
    ∃ pl', (Inv n pl' (freeClient s i c) ∧ Between st pl') ∧ ∀ x, x ≠ c → pl' x = pl x :=
  ⟨_, ⟨h.free hc hidle, hB.calm_update (p := .gone) rfl
    (fun _ hx => .inl (update_of_ne hx ..)) (update_self ..)⟩,
    fun _ hx => update_of_ne hx ..⟩

theorem Inv.not_input (h : Inv n pl s) (hB : Between st pl) (hw : s.worker i = .idle)
    (hc : pl c = .rest i) (j : ℕ) (b : Bool) : s.worker j ≠ .input c b := by
  intro hj
  have := h.input_rest hB hj
  rw [hc] at this
  cases this
  rw [hw] at hj
  exact WorkerPc.noConfusion hj

theorem writeToClient_inv (h : Inv n pl s) (hB : Between st pl) (hw : s.worker i = .idle)
    (hc : pl c = .rest i) (res : WriteResult) :
    ∃ pl', (Inv n pl' (writeToClient s i c res).1 ∧ Between st pl') ∧
      (writeToClient s i c res).1.worker i = .idle ∧ (∀ x, x ≠ c → pl' x = pl x) ∧
      ((writeToClient s i c res).2 = true → pl' c = .rest i) := by
  obtain ⟨-, k, hk, hR⟩ := h.rest hc
  have hwrite : ∀ rest, Inv n pl (s.setClient c fun k => { k with reply := rest }) :=
    fun rest => h.write_rest hc fun k => ⟨rfl, rfl, rfl, rfl, rfl, rfl⟩
  have hfree : ∀ s1, Inv n pl s1 → s1.worker i = .idle →
      ∃ pl', (Inv n pl' (freeClient s1 i c) ∧ Between st pl') ∧
        (freeClient s1 i c).worker i = .idle ∧ ∀ x, x ≠ c → pl' x = pl x := by
    intro s1 h1 hw1
    obtain ⟨pl', hpl', hne⟩ := h1.free_between hB hc (h1.not_input hB hw1 hc)
    exact ⟨pl', hpl', by rw [freeClient_worker, hw1], hne⟩
  simp only [writeToClient, hk]
  split
  · obtain ⟨pl', h1, h2, h3⟩ := hfree s h hw
    exact ⟨pl', h1, h2, h3, by simp⟩
  · generalize unsent k.reply _ = rest
    split_ifs
    · obtain ⟨pl', h1, h2, h3⟩ := hfree _ (hwrite rest) hw
      exact ⟨pl', h1, h2, h3, by simp⟩
    · exact ⟨pl, ⟨hwrite rest, hB⟩, hw, fun _ _ => rfl, fun _ => hc⟩

theorem Inv.unmark (h : Inv n pl s) (hc : pl c = .rest i)
    (hmem : c ∈ (s.loop i).clientsPendingWrite) :
    Inv n pl ((s.setClient c fun k => { k with pendingWrite := false }).setLoop i fun l =>
      { l with clientsPendingWrite := l.clientsPendingWrite.erase c }) := by
  obtain ⟨-, k, hk, hR⟩ := h.rest hc
  obtain ⟨k', hk', -, hp⟩ := (h.lists.pendingWrite.mem_iff i c).mp hmem
  rw [hk] at hk'
  cases hk'
  refine h.set_rest hc hk { hR with } rfl
    ⟨?_, h.lists.toClose.set hk rfl rfl rfl, h.lists.unblocked.set hk rfl rfl rfl⟩
  refine h.lists.pendingWrite.erase (fun x hx => s.setClient_ne c _ hx) hk hR.vel
    (fun k' hk' => ?_) ?_ fun j hj => ?_
  · rw [Sys.setLoop_client, Sys.setClient_self, hk] at hk'
    cases hk'
    rfl
  · simp [hp]
  · simp [Sys.setLoop_ne _ _ _ hj]

theorem freeClientAsync_worker (s : Sys) (i : ℕ) (c : Cid) :
    (freeClientAsync s i c).worker = s.worker := by
  unfold freeClientAsync
  split
  · rfl
  · split <;> rfl

theorem handlePendingWrite_inv (h : Inv n pl s) (hB : Between st pl) (hw : s.worker i = .idle)
    (hc : pl c = .rest i) (hmem : c ∈ (s.loop i).clientsPendingWrite)
    (res : Cid → WriteResult) (ok : Cid → Bool) :
    ∃ pl', (Inv n pl' (handlePendingWrite i res ok s c) ∧ Between st pl') ∧
      (handlePendingWrite i res ok s c).worker i = .idle ∧ ∀ x, x ≠ c → pl' x = pl x := by
  obtain ⟨pl', ⟨h1, hB1⟩, hw1, hne, hc1⟩ :=
    writeToClient_inv (h.unmark hc hmem) hB hw hc (res c)
  simp only [handlePendingWrite]
  generalize writeToClient _ i c (res c) = p at *
  obtain ⟨s1, valid⟩ := p
  cases valid with
  | false => exact ⟨pl', ⟨h1, hB1⟩, hw1, hne⟩
  | true =>
    obtain ⟨-, k, hk, -⟩ := h1.rest (hc1 rfl)
    simp only at hk ⊢
    rw [hk]
    dsimp only
    split_ifs
    · exact ⟨pl', ⟨h1.freeClientAsync (hc1 rfl), hB1⟩, by rw [freeClientAsync_worker, hw1], hne⟩
    · exact ⟨pl', ⟨h1, hB1⟩, hw1, hne⟩

theorem Inv.rest_of_listed (h : Inv n pl s) (hB : Between st pl) (hw : s.worker i = .idle)
    (hk : s.client c = some k) (hvel : k.vel = some i)
    (hflag : k.pendingWrite = true ∨ k.closeAsap = true) : pl c = .rest i := by
  have hd : ∀ j, s.worker j = .dispatch c → j ≠ i := by
    rintro j hj rfl
    rw [hw] at hj
    exact WorkerPc.noConfusion hj
  have hph := h.phase c
  have hdi := fun j => h.placed.dispatch_iff j c
  rw [hk] at hph
  cases hp : pl c <;> simp only [hp, Phase, Option.some.injEq] at hph
  case rest j =>
    obtain ⟨-, k', rfl, hR⟩ := hph
    rw [hR.vel] at hvel
    rw [Option.some.inj hvel]
  case leaving j =>
    obtain ⟨-, k', rfl, hv, -⟩ := hph
    rw [hv] at hvel
    exact absurd (Option.some.inj hvel) (hd j ((hdi j).mpr (.inl hp)))
  case out j =>
    obtain ⟨-, k', rfl, -, -, h1, h2, -⟩ := hph
    simp [h1, h2] at hflag
  case busy j => exact absurd hp (hB.busy c j)
  case visiting j => exact absurd hp (hB.visiting c j)
  all_goals grind [Detached]

theorem writeToClient_ne {x : Cid} (hx : x ≠ c) (res : WriteResult) :
    (writeToClient s i c res).1.client x = s.client x := by
  unfold writeToClient
  split
  · rfl
  · split
    · exact freeClient_ne hx
    · dsimp only
      split_ifs
      · rw [freeClient_ne hx, s.setClient_ne c _ hx]
      · exact s.setClient_ne c _ hx

theorem freeClientAsync_ne {x : Cid} (hx : x ≠ c) :
    (freeClientAsync s i c).client x = s.client x := by
  unfold freeClientAsync
  split
  · rfl
  · split_ifs
    · rfl
    · exact s.setClient_ne c _ hx

theorem handlePendingWrite_ne {x : Cid} (hx : x ≠ c) (res : Cid → WriteResult) (ok : Cid → Bool) :
    (handlePendingWrite i res ok s c).client x = s.client x := by
  have h1 := writeToClient_ne (i := i) (s := (s.setClient c fun k =>
    { k with pendingWrite := false }).setLoop i fun l =>
      { l with clientsPendingWrite := l.clientsPendingWrite.erase c }) hx (res c)
  rw [Sys.setLoop_client, s.setClient_ne c _ hx] at h1
  simp only [handlePendingWrite]
  generalize writeToClient _ i c (res c) = p at *
  obtain ⟨s1, valid⟩ := p
  cases valid with
  | false => exact h1
  | true =>
    dsimp only
    split
    · exact h1
    · split_ifs
      · rw [freeClientAsync_ne hx]
        exact h1
      · exact h1

theorem handlePendingWrites_inv (res : Cid → WriteResult) (ok : Cid → Bool) (xs : List Cid)
    (hnd : xs.Nodup) (h : Inv n pl s) (hB : Between st pl) (hw : s.worker i = .idle)
    (hxs : ∀ x ∈ xs, x ∈ (s.loop i).clientsPendingWrite) :
    ∃ pl', Inv n pl' (xs.foldl (handlePendingWrite i res ok) s) ∧ Between st pl' := by
  induction xs generalizing s pl with
  | nil => exact ⟨pl, h, hB⟩
  | cons x xs ih =>
    obtain ⟨hx, hnd⟩ := nodup_cons.mp hnd
    have hmem := hxs x mem_cons_self
    obtain ⟨k, hk, hvel, hp⟩ := (h.lists.pendingWrite.mem_iff i x).mp hmem
    obtain ⟨pl', ⟨h', hB'⟩, hw', -⟩ := handlePendingWrite_inv h hB hw
      (h.rest_of_listed hB hw hk hvel (.inl hp)) hmem res ok
    refine ih hnd h' hB' hw' fun y hy => ?_
    have hne : y ≠ x := fun e => hx (e ▸ hy)
    have hy' := (h.lists.pendingWrite.mem_iff i y).mp (hxs y (mem_cons_of_mem x hy))
    rw [← handlePendingWrite_ne (i := i) (s := s) hne res ok] at hy'
    exact (h'.lists.pendingWrite.mem_iff i y).mpr hy'

theorem freeAsyncOne_eq (hk : s.client c = some k) (hca : k.closeAsap = true) :
    freeAsyncOne i s c = freeClient s i c := by
  simp [freeAsyncOne, freeClient, hk, hca, Sys.setLoop, Sys.setClient]

theorem freeAsync_inv (xs : List Cid) (hnd : xs.Nodup) (h : Inv n pl s) (hB : Between st pl)
    (hw : s.worker i = .idle) (hxs : ∀ x ∈ xs, x ∈ (s.loop i).clientsToClose) :
    ∃ pl', Inv n pl' (xs.foldl (freeAsyncOne i) s) ∧ Between st pl' := by
  induction xs generalizing s pl with
  | nil => exact ⟨pl, h, hB⟩
  | cons x xs ih =>
    obtain ⟨hx, hnd⟩ := nodup_cons.mp hnd
    obtain ⟨k, hk, hvel, hp⟩ := (h.lists.toClose.mem_iff i x).mp (hxs x mem_cons_self)
    have hrest := h.rest_of_listed hB hw hk hvel (.inr hp)
    obtain ⟨pl', ⟨h', hB'⟩, -⟩ := h.free_between hB hrest (h.not_input hB hw hrest)
    rw [foldl_cons, freeAsyncOne_eq hk hp]
    refine ih hnd h' hB' (by rw [freeClient_worker, hw]) fun y hy => ?_
    have hne : y ≠ x := fun e => hx (e ▸ hy)
    have hy' := (h.lists.toClose.mem_iff i y).mp (hxs y (mem_cons_of_mem x hy))
    rw [← freeClient_ne (i := i) (s := s) hne] at hy'
    exact (h'.lists.toClose.mem_iff i y).mpr hy'

theorem Handling.setClient_begin (h : Handling n pl s i c) (r : Request) :
    Handling n pl (s.setClient c (·.begin r)) i c :=
  { h with inv := h.inv.serve_write h.place _ (fun _ => rfl) fun _ => rfl }

theorem processCommand_inv (h : Inv n pl s) (hB : Between st pl) (hc : pl c = .rest i)
    {b : Bool} (hw : s.worker i = .input c b) (hk : s.client c = some k)
    (hopen : k.closeAfterReply = false) (r : Request) :
    ∃ pl' k', Handling n pl' (processCommand n s i c r) i c ∧
      Freed i c (update pl c (.busy i)) pl' ∧
      (processCommand n s i c r).net = s.net ∧
      (processCommand n s i c r).client c = some k' ∧
      Phase n (if k'.jump then .leaving i else .rest i) (some k')
        ((processCommand n s i c r).hist c) := by
  obtain ⟨hi, k1, hk1, hR⟩ := h.rest hc
  rw [hk] at hk1
  cases hk1
  have h0 := (h.take hB hc (fun x hx => by rw [hw] at hx; exact WorkerPc.noConfusion hx)
    fun x b' hx => by rw [hw] at hx; exact (WorkerPc.input.inj hx).1.symm).setClient_begin r
  -- the effect of the handler on the client and its history
  have hproc : Serves i c (s.setClient c (·.begin r)) (processCommand n s i c r) ∧
      ∃ k', (processCommand n s i c r).client c = some k' ∧
        Phase n (if k'.jump then .leaving i else .rest i) (some k')
          ((processCommand n s i c r).hist c) := by
    rcases processCommand_ran hk hR (Nat.zero_lt_of_lt hi) hopen r with ⟨K, P, hran⟩ | ⟨-, hs, ha⟩
    · refine ⟨hran.serves, ?_⟩
      rcases step_issue hi hran.ready hR.vel hR.steps hR.hist hran.caches hran.stepped with
        ⟨k', hk', hj, hp⟩ | ⟨k', hk', hj, hp⟩
      · exact ⟨k', hk', by rw [hj, if_pos rfl, ← hk']; exact hp⟩
      · exact ⟨k', hk', by rw [hj, if_neg Bool.false_ne_true, ← hk']; exact hp⟩
    · have hR0 : Rest n i (k.begin r) (s.hist c) := { hR with }
      obtain ⟨k', hk', hj, hp⟩ := step_other hi hR0 ha
      exact ⟨hs, k', hk', by rw [hj, if_neg Bool.false_ne_true, ← hk']; exact hp⟩
  obtain ⟨hserve, k', hk', hphase⟩ := hproc
  obtain ⟨pl', hpl', hf⟩ := h0.serves hserve
  exact ⟨pl', k', hpl', hf, (Serves.net hserve).trans rfl, hk', hphase⟩

theorem processInput_inv (h : Inv n pl s) (hB : Between st pl) {linked : Bool} (ae : Bool)
    (hw : s.worker i = .input c linked) :
    ∃ pl', Inv n pl' (processInput n s i c linked ae) ∧ Between st pl' := by
  have hc := h.input_rest hB hw
  obtain ⟨hi, k, hk, hR⟩ := h.rest hc
  -- the end of the loop without a jump
  have hend : ∃ pl', Inv n pl' (afterInput s i c k linked ae) ∧ Between st pl' := by
    simp only [afterInput, hR.jump, Bool.false_eq_true, if_false]
    split_ifs
    · refine ⟨pl, (h.freeClientAsync hc).setWorker (fun x => ?_) (by simp), hB⟩
      rw [freeClientAsync_worker, hw]
      simp
    · refine ⟨pl, h.setWorker (fun x => ?_) (by simp), hB⟩
      rw [hw]
      simp
  simp only [processInput, hk]
  split
  · next r _ hq hopen =>
    obtain ⟨pl', k', hH, hf, hnet, hk', hphase⟩ := processCommand_inv h hB hc hw hk hopen r
    have hbusy : pl' c = .busy i := by rw [hf.self, update_self]
    simp only [hk']
    split_ifs at hphase ⊢ with hj
    · simp only [afterInput, hj, if_true]
      exact ⟨_, hH.putDown (p := .leaving i) (.inl ⟨hbusy, .inr rfl⟩) (hk' ▸ hphase)
        (by simp [eq_comm]) (by simp), hB.of_freed hf rfl⟩
    · have hpc : (processCommand n s i c r).worker i = .input c linked :=
        (congrFun (congrArg Net.worker hnet) i).trans hw
      have := hH.putDown (p := .rest i) (v := .input c linked) (.inl ⟨hbusy, .inl rfl⟩)
        (hk' ▸ hphase) (by simp) (by simp [eq_comm])
      rw [← hpc, Sys.setWorker_eta] at this
      exact ⟨_, this, hB.of_freed hf rfl⟩
  · exact hend

end Vire.Jump
