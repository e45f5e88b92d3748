import Vire.Jump.Proofs.Handover

/-!
# The worker's side of a hand-over

A worker pops a unit and creates the client of a new connection, or takes in a client that arrived
and runs its step; and it pushes a client that goes on to the queue of the master.
-/

namespace Vire.Jump

open Function List

variable {n : ℕ} {pl pl' : Cid → Place} {s s' : Sys} {i w m : ℕ} {c : Cid} {k k' : Client}
  {su : ConnSwapUnit} {q rest : List ConnSwapUnit} {st : Prop} {num : ℤ}

theorem Inv.pop_listen (h : Inv n pl s) (hq : s.csul i = ⟨num, .listen⟩ :: rest) :
    Inv n pl { s with csul := update s.csul i rest } := by
  have hP := h.placed
  refine ⟨h.phase, { h.lists with },
    { hP with
      queued_nodup := fun j => ?_
      queued_iff := fun j x => ?_
      queued_num := fun j su hsu => ?_ }⟩
  all_goals
    by_cases hj : j = i
    · subst hj
      first
        | simpa [hq] using hP.queued_nodup j
        | simpa [hq] using hP.queued_iff j x
        | exact hP.queued_num j su (by simp_all)
    · simp only [update_of_ne hj] at *
      first
        | exact hP.queued_nodup j
        | exact hP.queued_iff j x
        | exact hP.queued_num j su hsu

theorem createClient_field {α : Type*} (s : Sys) (i : ℕ) (sd : ℤ) (peerid : Sds)
    (g : EventLoop → α) (hg : ∀ l c m, g { l with clients := c, nextClientId := m } = g l) (j : ℕ) :
    g ((createClient s i sd peerid).loop j) = g (s.loop j) := by
  by_cases hj : j = i
  · subst hj
    simp only [createClient, Sys.setLoop_self]
    exact hg ..
  · simp only [createClient, Sys.setLoop_ne _ _ _ hj]

theorem Placed.clients_append (h : Placed n pl s)
    (hc : ∀ j, ¬ (pl c = .rest j ∨ pl c = .leaving j ∨ pl c = .busy j))
    (hne : ∀ j, j ≠ i → (s'.loop j).clients = (s.loop j).clients)
    (hi : (s'.loop i).clients = (s.loop i).clients ++ [c]) (j : ℕ) :
    Moves c (s.loop j).clients (s'.loop j).clients (Place.rest i = .rest j ∨
      Place.rest i = .leaving j ∨ Place.rest i = .busy j) := by
  have hnew := (not_congr (h.clients_iff j c)).mpr (hc j)
  by_cases hj : j = i
  · subst hj
    rw [hi]
    exact .append (h.clients_nodup j) hnew (.inl rfl)
  · rw [hne j hj]
    exact .keep (h.clients_nodup j) (iff_of_false hnew (by simp [Ne.symm hj]))

theorem createClient_inv (h : Inv n pl s) (hB : Between st pl) (hi : i < n) {sd : ℤ} (hsd : 0 < sd)
    (peerid : Sds) :
    ∃ pl', Inv n pl' (createClient s i sd peerid) ∧ Between st pl' := by
  have hP := h.placed
  obtain ⟨hgone, hnil⟩ := hP.fresh s.nextCid le_rfl
  have hnone : s.client s.nextCid = none := by
    have := h.phase s.nextCid
    rw [hgone] at this
    exact this.1
  have hne : ∀ x, x ≠ s.nextCid → (createClient s i sd peerid).client x = s.client x :=
    fun x hx => update_of_ne hx ..
  have hpl : ∀ x, x ≠ s.nextCid → update pl s.nextCid (.rest i) x = pl x :=
    fun x hx => update_of_ne hx ..
  have hself : (createClient s i sd peerid).client s.nextCid =
      some (newClient (s.loop i).nextClientId i sd peerid) := update_self ..
  have hflag : ∀ {l l' : ℕ → List Cid} {flag : Client → Bool}, FlagList s.client l flag →
      (∀ j, l' j = l j) → flag (newClient (s.loop i).nextClientId i sd peerid) = false →
      FlagList (createClient s i sd peerid).client l' flag := by
    intro l l' flag hl hl' hfalse
    refine hl.of_change hne fun j => ?_
    rw [hl']
    exact .keep (hl.nodup j) (by simp [hl.mem_iff, hnone, hself, hfalse])
  refine ⟨_, h.move (p := .rest i) hne rfl ⟨hi, _, hself, rfl, rfl, rfl, rfl, rfl, hsd, ?_⟩
      ⟨hflag h.lists.pendingWrite (createClient_field s i sd peerid _ fun _ _ _ => rfl) rfl,
        hflag h.lists.toClose (createClient_field s i sd peerid _ fun _ _ _ => rfl) rfl,
        hflag h.lists.unblocked (createClient_field s i sd peerid _ fun _ _ _ => rfl) rfl⟩
      (hP.of_home_fresh rfl hne (by rw [hgone]; rfl) rfl (fun x hx => ?_)
        (fun j b hin => ?_) fun j => ?_),
    hB.calm_update (p := .rest i) rfl (fun x hx => .inl (hpl x hx)) (update_self ..)⟩
  · rw [show (createClient s i sd peerid).hist = s.hist from rfl, hnil]
    exact .nil i
  · have hx : s.nextCid < x := hx
    rw [hpl x hx.ne']
    exact hP.fresh x hx.le
  · rcases hP.input j _ b hin with h1 | h1 <;> rw [hgone] at h1 <;> exact Place.noConfusion h1
  · exact hP.clients_append (by simp [hgone])
      (fun j hj => by simp [createClient, Sys.setLoop_ne _ _ _ hj]) (by simp [createClient]) j

theorem Inv.queued (h : Inv n pl s) (hq : s.csul i = ⟨num, .client c⟩ :: rest) :
    pl c = .queued i ∧ i < n ∧ ∃ k, s.client c = some k ∧ Detached n k (s.hist c) ∧
      k.taridx = i := by
  have hc : pl c = .queued i := (h.placed.queued_iff i c).mp (by rw [hq]; simp)
  have := h.phase c
  rw [hc] at this
  exact ⟨hc, this⟩

theorem FlagList.detached {client client' : Cid → Option Client} {l : ℕ → List Cid}
    {flag : Client → Bool} (hl : FlagList client l flag)
    (hne : ∀ x, x ≠ c → client' x = client x) (hk : client c = some k) (hk' : client' c = some k')
    (hf : flag k = false) (hf' : flag k' = false) : FlagList client' l flag := by
  exact hl.of_change hne fun j => .keep (hl.nodup j) (by simp [hl.mem_iff, hk, hk', hf, hf'])

theorem Inv.pop_client (h : Inv n pl s) (hq : s.csul i = ⟨num, .client c⟩ :: rest)
    {p : Place} (hp : p = .visiting i ∨ p = .lost) {f : Client → Client}
    (hf : ∀ k, (f k).pendingWrite = k.pendingWrite ∧ (f k).closeAsap = k.closeAsap ∧
      (f k).unblocked = k.unblocked ∧ (p = .visiting i → (f k).vel = some i) ∧
      (p = .lost → (f k).curidx = k.curidx)) :
    Inv n (update pl c p)
      ({ s with csul := update s.csul i rest }.setClient c f) := by
  have hP := h.placed
  obtain ⟨hc, hi, k, hk, hdet, -⟩ := h.queued hq
  obtain ⟨hfp, hfc, hfu, hfv, hfi⟩ := hf k
  have hnd := hP.queued_nodup i
  rw [hq] at hnd
  set s0 : Sys := { s with csul := update s.csul i rest } with hs0
  have hne : ∀ x, x ≠ c → (s0.setClient c f).client x = s.client x :=
    fun x hx => s0.setClient_ne c f hx
  have hself : (s0.setClient c f).client c = some (f k) := by
    rw [Sys.setClient_self, show s0.client c = s.client c from rfl, hk]
    rfl
  have hphase : Phase n p (some (f k)) (s.hist c) := by
    rcases hp with rfl | rfl
    · exact ⟨hi, f k, rfl, hfv rfl⟩
    · obtain ⟨j, hj, hjump⟩ := hdet.jumping
      exact ⟨f k, rfl, hfp.trans hdet.pendingWrite, hfc.trans hdet.closeAsap,
        hfu.trans hdet.unblocked, j, hj, (hfi rfl).trans hjump.curidx⟩
  refine h.move hne rfl (hself ▸ hphase)
    ⟨h.lists.pendingWrite.detached hne hk hself hdet.pendingWrite (hfp.trans hdet.pendingWrite),
      h.lists.toClose.detached hne hk hself hdet.closeAsap (hfc.trans hdet.closeAsap),
      h.lists.unblocked.detached hne hk hself hdet.unblocked (hfu.trans hdet.unblocked)⟩
    (hP.move_away (by rw [hc]; rfl) (by rcases hp with rfl | rfl <;> rfl) rfl rfl rfl rfl
      (.keep hP.back_nodup (by rcases hp with rfl | rfl <;> simp [hP.back_iff, hc]))
      (fun su => hP.back_num_of hne (by simp [hc])) (fun j => ?_) (fun j su hsu => ?_) (fun x => ?_)
      fun idx su => hP.held_num_of hne (by simp [hc]))
  · have hpj : p ≠ .queued j := by rcases hp with rfl | rfl <;> simp
    by_cases hj : j = i
    · subst hj
      simp only [Sys.setClient, hs0, update_self, hq]
      exact .tail hnd hpj
    · simp only [Sys.setClient, hs0, update_of_ne hj]
      exact .keep (hP.queued_nodup j) (by simp [hP.queued_iff, hc, hpj, Ne.symm hj])
  · refine hP.queued_num j su ?_
    by_cases hj : j = i
    · subst hj
      simp only [Sys.setClient, hs0, update_self] at hsu
      rw [hq]
      exact mem_cons_of_mem _ hsu
    · simpa [Sys.setClient, hs0, hj] using hsu
  · rw [update_eq_iff (by rcases hp with rfl | rfl <;> simp) (by simp [hc])]
    exact hP.held_iff x

def linked (s : Sys) (i : ℕ) (c : Cid) : Sys :=
  (s.setLoop i fun l => { l with clients := l.clients ++ [c] }).setClient c fun k =>
    { k with vel := some i }

theorem Handling.link (h : Handling n pl s i c) (hc : pl c = .visiting i)
    (hphase : Phase n (.rest i) (s.client c) (s.hist c)) :
    Inv n (update pl c (.rest i)) (linked s i c) := by
  have hP := h.inv.placed
  obtain ⟨hi, k, hk, hR⟩ := hphase
  have hne : ∀ x, x ≠ c → (linked s i c).client x = s.client x :=
    fun x hx => Sys.setClient_ne _ c _ hx
  have hself : (linked s i c).client c = some k := by
    simp only [linked, Sys.setClient_self, Sys.setLoop_client, hk, Option.map_some]
    rw [← hR.vel]
  have hfield := fun {α : Type} (g : EventLoop → α) => setLoop_field s i g
    (f := fun l => { l with clients := l.clients ++ [c] })
  refine h.inv.move hne rfl ⟨hi, k, hself, hR⟩
    ⟨h.inv.lists.pendingWrite.keep hne hk hself rfl rfl (hfield _ rfl),
      h.inv.lists.toClose.keep hne hk hself rfl rfl (hfield _ rfl),
      h.inv.lists.unblocked.keep hne hk hself rfl rfl (hfield _ rfl)⟩
    (hP.of_home rfl rfl hne (fun _ _ => rfl) (by rw [hc]; rfl) rfl (by simp [hc])
      (fun j b hin => ?_)
      (hP.clients_append (by simp [hc]) (fun j hj => by simp [linked, Sys.setLoop_ne _ _ _ hj])
        (by simp [linked])))
  rcases hP.input j c b hin with h1 | h1 <;> rw [hc] at h1 <;> exact Place.noConfusion h1

theorem arrive_inv (h : Inv n pl s) (hB : Between st pl) {tag : Tag} {real : Bool}
    (hw : s.worker i = .gotByte tag real) (hq : s.csul i = ⟨num, .client c⟩ :: rest) (ae : Bool) :
    ∃ pl', Inv n pl' (arrive n { s with csul := update s.csul i rest } i c ae) ∧
      Between st pl' := by
  obtain ⟨hc, hi, k, hk, hdet, htar⟩ := h.queued hq
  obtain ⟨r, K, P, w, hran, hwn, hmod, hu⟩ :=
    hdet.ran (s := { s with csul := update s.csul i rest }) hk htar
  set s0 : Sys := { s with csul := update s.csul i rest }.setClient c (·.arrived i) with hs0
  have hH : Handling n (update pl c (.visiting i)) s0 i c :=
    ⟨h.pop_client hq (.inl rfl) fun _ => ⟨rfl, rfl, rfl, fun _ => rfl, Place.noConfusion⟩,
      .inr (update_self ..), fun x hx => by
        by_contra hne
        rw [update_of_ne hne] at hx
        exact hB.busy x i hx,
      fun x b hx => WorkerPc.noConfusion (hw.symm.trans hx),
      fun x hx => WorkerPc.noConfusion (hw.symm.trans hx)⟩
  obtain ⟨pl', hH', hf⟩ := hH.serves hran.serves
  have hvis : pl' c = .visiting i := by rw [hf.self, update_self]
  have hout := step_arrive (m := k.steps) hi hran.ready rfl rfl hwn hmod hdet.pendingWrite
    hdet.closeAsap hdet.unblocked hu hran.caches hran.stepped
  rcases hout with ⟨k', hk', hj, hphase⟩ | ⟨k', hk', hj, hphase⟩
  · rw [arrive_eq ae hk', if_pos hj]
    exact ⟨_, hH'.putDown (p := .out i) (.inr ⟨hvis, rfl⟩) hphase (by simp [eq_comm]) (by simp),
      hB.of_freed hf rfl⟩
  · simp only [arrive_eq ae hk', hj, Bool.false_eq_true, if_false, linkClientToEventloop]
    have hL := hH'.link hvis hphase
    have hBL := hB.of_freed hf (p := .rest i) rfl
    have hwl : (linked (proc n s0 i c) i c).worker i = .gotByte tag real :=
      (congrFun (congrArg Net.worker (Serves.net hran.serves)) i).trans hw
    have hrest := update_self c (.rest i) pl'
    cases ae with
    | true =>
      refine ⟨_, hL.setWorker (v := .input c true) (fun x => ?_) fun x b hx => ?_, hBL⟩
      · rw [hwl]
        simp
      · cases hx
        exact .inl hrest
    | false =>
      obtain ⟨pl'', ⟨h1, hB1⟩, -⟩ := hL.free_between hBL hrest fun j b hin => by
        have := hL.input_rest hBL hin
        rw [hrest] at this
        cases this
        rw [hwl] at hin
        exact WorkerPc.noConfusion hin
      refine ⟨pl'', h1.setWorker (fun x => ?_) (by simp), hB1⟩
      rw [freeClient_worker, hwl]
      simp

end Vire.Jump
