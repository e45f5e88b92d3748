import Vire.Jump.Protocol
import Vire.Jump.Proofs.Arrival
import Vire.Jump.Proofs.Steps

/-!
# Ownership of clients

Every step keeps the invariant, provided that no client that is scheduled for asynchronous freeing
starts a jump: `unlinkClientFromEventloop` would leave it in `clients_to_close`.
-/

namespace Vire.Jump

open Function List

variable {n : ℕ} {pl pl' : Cid → Place} {s s' : Sys} {i w m : ℕ} {c : Cid} {k k' : Client}
  {a : Act} {st : Prop}

theorem Placed.leave (h : Placed n pl s) (hw : s.worker i = .dispatch c) {p : Place}
    (hp : p = .back ∨ p = .lost ∨ p = .dropped) {v : WorkerPc} (hpc : ∀ x, v ≠ .dispatch x)
    (hin : ∀ x b, v ≠ .input x b) (hworker : s'.worker = update s.worker i v)
    (hmaster : s'.master = s.master) (hcsul : s'.csul = s.csul) (hcid : s'.nextCid = s.nextCid)
    (hhist : s'.hist = s.hist) (hne : ∀ x, x ≠ c → s'.client x = s.client x)
    (hl : ∀ j, Moves c (s.loop j).clients (s'.loop j).clients False)
    (hback : Moves c (unitClients s.cbsul) (unitClients s'.cbsul) (p = .back))
    (back_num : ∀ su ∈ s'.cbsul, ∃ c k, su.data = .client c ∧ s'.client c = some k ∧
      su.num = k.taridx) :
    Placed n (update pl c p) s' := by
  have hc := (h.dispatch_iff i c).mp hw
  have hcne : ∀ q, (∀ j, q ≠ .leaving j ∧ q ≠ .out j) → pl c ≠ q := by
    intro q hq
    rcases hc with hc | hc <;> rw [hc]
    · exact Ne.symm (hq i).1
    · exact Ne.symm (hq i).2
  -- the client is in no queue before
  have key : ∀ x q, (∀ j, q ≠ .leaving j ∧ q ≠ .out j) → q ≠ .back → q ≠ .lost → q ≠ .dropped →
      (update pl c p x = q ↔ pl x = q) := by
    intro x q h1 h2 h3 h4
    refine update_eq_iff ?_ (hcne q h1) x
    rcases hp with rfl | rfl | rfl <;> exact Ne.symm ‹_›
  have hloop : ∀ j, ¬ (p = .rest j ∨ p = .leaving j ∨ p = .busy j) := by
    intro j
    rcases hp with rfl | rfl | rfl <;> simp
  refine ⟨fun j => (hl j).nodup, h.clients_moved fun j => ?_, hback.nodup,
    hback.mem_iff (Q := (· = .back)) h.back_iff,
    back_num, hcsul ▸ h.queued_nodup, fun j x => ?_, hcsul ▸ h.queued_num, fun x => ?_,
    fun idx su hsu => h.held_num_of hne (hcne .held (by simp)) (hmaster ▸ hsu), fun j x => ?_,
      fun j x b hx => ?_,
    fun x hx => ?_⟩
  · rw [eq_false (hloop j)]
    exact hl j
  · rw [hcsul, key x _ (by simp) (by simp) (by simp) (by simp)]
    exact h.queued_iff j x
  · rw [hmaster, key x _ (by simp) (by simp) (by simp) (by simp)]
    exact h.held_iff x
  · by_cases hx : x = c
    · subst hx
      have hnone : ¬ (update pl x p x = .leaving j ∨ update pl x p x = .out j) := by
        rw [update_self]
        rcases hp with rfl | rfl | rfl <;> simp
      refine ⟨fun e => ?_, fun e => absurd e hnone⟩
      rw [hworker] at e
      by_cases hj : j = i
      · subst hj
        exact absurd (update_self j v s.worker ▸ e) (hpc x)
      · rw [update_of_ne hj, h.dispatch_iff] at e
        rcases hc with hc | hc <;> rw [hc] at e <;> simp [Ne.symm hj] at e
    · rw [hworker, update_of_ne hx, ← h.dispatch_iff]
      by_cases hj : j = i
      · subst hj
        rw [update_self, hw]
        exact ⟨fun e => absurd e (hpc x), fun e => absurd (WorkerPc.dispatch.inj e).symm hx⟩
      · rw [update_of_ne hj]
  · rw [hworker] at hx
    have hj : j ≠ i := by
      rintro rfl
      rw [update_self] at hx
      exact hin x b hx
    rw [update_of_ne hj] at hx
    have hxin := h.input j x b hx
    have hxc : x ≠ c := by
      rintro rfl
      rcases hxin with h1 | h1 <;> exact hcne _ (by simp) h1
    rw [update_of_ne hxc]
    exact hxin
  · rw [hcid] at hx
    rw [hhist, key x _ (by simp) (by simp) (by simp) (by simp)]
    exact h.fresh x hx

theorem Inv.dispatching (h : Inv n pl s) (hw : s.worker i = .dispatch c) :
    i < n ∧ ∃ k, s.client c = some k ∧ k.vel = some i ∧ Jumping n i k (s.hist c) ∧
      (pl c = .leaving i ∧ k.steps = 0 ∨ pl c = .out i ∧ 1 ≤ k.steps ∧ k.pendingWrite = false ∧
        k.closeAsap = false ∧ k.unblocked = false) := by
  have hph := h.phase c
  rcases (h.placed.dispatch_iff i c).mp hw with hc | hc <;> rw [hc] at hph
  · obtain ⟨hi, k, hk, hv, h0, hj⟩ := hph
    exact ⟨hi, k, hk, hv, hj, .inl ⟨rfl.trans hc, h0⟩⟩
  · obtain ⟨hi, k, hk, hv, h1, hp, hca, hu, hj⟩ := hph
    exact ⟨hi, k, hk, hv, hj, .inr ⟨rfl.trans hc, h1, hp, hca, hu⟩⟩

theorem Placed.mem_clients_out (h : Placed n pl s) (hc : pl c = .out i) (j : ℕ) :
    c ∉ (s.loop j).clients := by
  intro hmem
  rcases (h.clients_iff j c).mp hmem with h1 | h1 | h1 <;> rw [hc] at h1 <;>
    exact Place.noConfusion h1

theorem Placed.mem_clients_leaving (h : Placed n pl s) (hc : pl c = .leaving i) {j : ℕ}
    (hmem : c ∈ (s.loop j).clients) : j = i := by
  rcases (h.clients_iff j c).mp hmem with h1 | h1 | h1 <;> rw [hc] at h1
  · exact Place.noConfusion h1
  · exact (Place.leaving.inj h1).symm
  · exact Place.noConfusion h1

/-- What `unlinkClientFromEventloop` leaves behind: a client that no event loop refers to. -/
structure Unlinked (n : ℕ) (s s' : Sys) (c : Cid) (k : Client) : Prop where
  self : ∃ k', s'.client c = some k' ∧ Detached n k' (s.hist c) ∧ k'.taridx = k.taridx
  other : ∀ x, x ≠ c → s'.client x = s.client x
  hist : s'.hist = s.hist
  net : s'.net = s.net
  nextCid : s'.nextCid = s.nextCid
  lists : Lists s'
  clients : ∀ j, Moves c (s.loop j).clients (s'.loop j).clients False

theorem unlink_spec (h : Inv n pl s) (hw : s.worker i = .dispatch c) (hk : s.client c = some k)
    (htidy : k.steps = 0 → k.closeAsap = false) :
    Unlinked n s (unlinkClientFromEventloop s i c) c k := by
  have hP := h.placed
  obtain ⟨hi, k1, hk1, hvel, hj, hcase⟩ := h.dispatching hw
  rw [hk] at hk1
  cases hk1
  rcases hcase with ⟨hc, h0⟩ | ⟨hc, h1, hp, hca, hu⟩
  · have hne : ∀ x, x ≠ c → (unlinkClientFromEventloop s i c).client x = s.client x := by
      intro x hx
      simp [unlinkClientFromEventloop, hk, h0, Sys.setClient_ne _ _ _ hx]
    have hself : (unlinkClientFromEventloop s i c).client c =
        some { k with vel := none, pendingWrite := false, unblocked := false } := by
      simp [unlinkClientFromEventloop, hk, h0]
    have hloop : ∀ j, j ≠ i → (unlinkClientFromEventloop s i c).loop j = s.loop j := by
      intro j hj
      simp [unlinkClientFromEventloop, hk, h0, Sys.setLoop_ne _ _ _ hj]
    have hout : ∀ flag : Client → Bool,
        flag { k with vel := none, pendingWrite := false, unblocked := false } = false →
        ∀ k', (unlinkClientFromEventloop s i c).client c = some k' → flag k' = false := by
      intro flag hf k' hk'
      rw [hself] at hk'
      cases hk'
      exact hf
    have hcl : ((unlinkClientFromEventloop s i c).loop i).clients = (s.loop i).clients.erase c := by
      simp [unlinkClientFromEventloop, hk, h0]
    refine ⟨⟨_, hself, ⟨rfl, rfl, htidy h0, rfl, i, hi, { hj with }⟩, rfl⟩, hne,
      ?_, ?_, ?_, ⟨?_, ?_, ?_⟩, fun j => ?_⟩
    · simp [unlinkClientFromEventloop, hk, h0]
    · simp [unlinkClientFromEventloop, hk, h0]
    · simp [unlinkClientFromEventloop, hk, h0]
    · exact h.lists.pendingWrite.erase hne hk hvel (hout _ rfl)
        (by simp [unlinkClientFromEventloop, hk, h0]) fun j hj => by rw [hloop j hj]
    · refine h.lists.toClose.detached hne hk hself (htidy h0) (htidy h0) |>.keep (fun _ _ => rfl)
        hself hself rfl rfl fun j => ?_
      by_cases hj : j = i
      · subst hj
        simp [unlinkClientFromEventloop, hk, h0]
      · rw [hloop j hj]
    · exact h.lists.unblocked.erase hne hk hvel (hout _ rfl)
        (by simp [unlinkClientFromEventloop, hk, h0]) fun j hj => by rw [hloop j hj]
    · by_cases hj : j = i
      · subst hj
        rw [hcl]
        exact .erase (hP.clients_nodup j) id
      · rw [hloop j hj]
        exact .keep (hP.clients_nodup j)
          (iff_false_intro fun hm => hj (hP.mem_clients_leaving hc hm))
  · have heq : unlinkClientFromEventloop s i c = s.setClient c fun k => { k with vel := none } := by
      simp [unlinkClientFromEventloop, hk, h1]
    rw [heq]
    have hne : ∀ x, x ≠ c → (s.setClient c fun k => { k with vel := none }).client x =
        s.client x := fun x hx => s.setClient_ne c _ hx
    have hself : (s.setClient c fun k => { k with vel := none }).client c =
        some { k with vel := none } := by simp [hk]
    exact ⟨⟨_, hself, ⟨rfl, hp, hca, hu, i, hi, { hj with }⟩, rfl⟩, hne, rfl, rfl, rfl,
      ⟨h.lists.pendingWrite.detached hne hk hself hp hp,
        h.lists.toClose.detached hne hk hself hca hca,
        h.lists.unblocked.detached hne hk hself hu hu⟩,
      fun j => .keep (hP.clients_nodup j) (iff_false_intro (hP.mem_clients_out hc j))⟩

theorem dispatch_push_inv (h : Inv n pl s) (hB : Between st pl) (hw : s.worker i = .dispatch c)
    (htidy : ∀ k, s.client c = some k → k.steps = 0 → k.closeAsap = false) :
    ∃ pl', Inv n pl' (dispatchConnExist s i c true) ∧ Between st pl' := by
  have hP := h.placed
  obtain ⟨hi, k, hk, hvel, hj, hcase⟩ := h.dispatching hw
  have hu := unlink_spec h hw hk (htidy k hk)
  obtain ⟨k', hk', hdet, htar⟩ := hu.self
  have hcb : (unlinkClientFromEventloop s i c).cbsul = s.cbsul := congrArg Net.cbsul hu.net
  have hwk : update (unlinkClientFromEventloop s i c).worker i (.pushed c) =
      update s.worker i (.pushed c) := by
    rw [show (unlinkClientFromEventloop s i c).worker = s.worker from congrArg Net.worker hu.net]
  have hnew : c ∉ unitClients s.cbsul := fun hmem => by
    rcases hcase with ⟨hc, -⟩ | ⟨hc, -⟩ <;> rw [(hP.back_iff c).mp hmem] at hc <;>
      exact Place.noConfusion hc
  simp only [dispatchConnExist, hk, if_true]
  refine ⟨_, h.move (p := .back) hu.other hu.hist ⟨k', hk', hu.hist ▸ hdet⟩
    { hu.lists with }
    (hP.leave hw (.inl rfl) (by simp) (by simp) hwk (congrArg Net.master hu.net)
      (congrArg Net.csul hu.net) hu.nextCid hu.hist hu.other hu.clients ?_ fun su hsu => ?_),
    hB.calm_update (p := .back) rfl (fun x hx => .inl (update_of_ne hx ..))
      (update_self ..)⟩
  · simp only [hcb, unitClients_append]
    exact .append hP.back_nodup hnew trivial
  · simp only [hcb, mem_append, mem_singleton] at hsu
    rcases hsu with hsu | rfl
    · exact hP.back_num_of hu.other (fun hc => hnew ((hP.back_iff c).mpr hc)) hsu
    · exact ⟨c, k', rfl, hk', htar.symm⟩

theorem Between.of_not_strict (hB : Between st pl) (hst : ¬ st) {p : Place}
    (hp : ∀ j, p ≠ .busy j ∧ p ≠ .visiting j) : Between st (update pl c p) := by
  refine ⟨fun x j => ?_, fun x j => ?_, fun e => absurd e hst⟩
  all_goals
    by_cases hx : x = c
    · subst hx
      rw [update_self]
      first | exact (hp j).1 | exact (hp j).2
    · rw [update_of_ne hx]
      first | exact hB.busy x j | exact hB.visiting x j

theorem dispatch_fail_inv (h : Inv n pl s) (hB : Between st pl) (hw : s.worker i = .dispatch c)
    (hst : ¬ st) : ∃ pl', Inv n pl' (dispatchConnExist s i c false) ∧ Between st pl' := by
  have hP := h.placed
  obtain ⟨hi, k, hk, hvel, hj, hcase⟩ := h.dispatching hw
  have hcb : pl c ≠ .back := by rcases hcase with ⟨hc, -⟩ | ⟨hc, -⟩ <;> simp [hc]
  have hback : c ∉ unitClients s.cbsul := (not_congr (hP.back_iff c)).mpr hcb
  simp only [dispatchConnExist, hk, Bool.false_eq_true, if_false]
  rcases hcase with ⟨hc, h0⟩ | ⟨hc, h1, hp, hca, hub⟩
  · obtain ⟨hcb', hcs, -, -, -, hm, hwk⟩ := Net.mk.inj (freeClient_net s i c)
    have hcl := freeClient_clients hk fun j => hP.mem_clients_leaving (j := j) hc
    have hne : ∀ x, x ≠ c → (freeClient s i c).client x = s.client x := fun x hx => freeClient_ne hx
    simp only [h0, if_true]
    refine ⟨_, h.move (p := .dropped) hne (freeClient_hist s i c) (freeClient_self s i c)
      { h.lists.free hk hvel with }
      (hP.leave hw (.inr (.inr rfl)) (v := .idle) (by simp) (by simp)
        (by rw [Sys.setWorker_worker, hwk]) hm hcs
        (freeClient_nextCid s i c) (freeClient_hist s i c) hne (fun j => ?_) ?_
        fun su hsu => hP.back_num_of hne hcb (hcb' ▸ hsu)), hB.of_not_strict hst (by simp)⟩
    · rw [Sys.setWorker_loop, hcl]
      exact .erase (hP.clients_nodup j) id
    · rw [Sys.setWorker_cbsul, hcb']
      exact .keep hP.back_nodup (iff_of_false hback (by simp))
  · simp only [show k.steps ≠ 0 by omega, if_false]
    exact ⟨_, h.move (p := .lost) (fun _ _ => rfl) rfl ⟨k, hk, hp, hca, hub, i, hi, hj.curidx⟩
      { h.lists with }
      (hP.leave hw (.inr (.inl rfl)) (v := .dead) (by simp) (by simp) rfl rfl rfl rfl rfl
        (fun _ _ => rfl)
        (fun j => .keep (hP.clients_nodup j) (iff_false_intro (hP.mem_clients_out hc j)))
        (.keep hP.back_nodup (iff_of_false hback (by simp))) hP.back_num),
      hB.of_not_strict hst (by simp)⟩

theorem init_inv (n ncmd : ℕ) : Inv n (fun _ => .gone) (init ncmd) := by
  refine ⟨fun c => ⟨rfl, 0, .nil 0⟩, ⟨?_, ?_, ?_⟩, ?_⟩
  · exact ⟨fun _ => nodup_nil, by simp [init]⟩
  · exact ⟨fun _ => nodup_nil, by simp [init]⟩
  · exact ⟨fun _ => nodup_nil, by simp [init]⟩
  · constructor <;> simp [init]

theorem init_between (st : Prop) : Between st (fun _ => .gone) :=
  ⟨by simp, by simp, by simp⟩

section

variable (h : Inv n pl s)

include h

theorem Inv.after_byte {tag : Tag} {real : Bool}
    (hw : s.worker i = .gotByte tag real) {v : WorkerPc} (hd : ∀ x, v ≠ .dispatch x)
    (hin : ∀ x b, v ≠ .input x b) : Inv n pl (s.setWorker i v) := by
  refine h.setWorker (fun x => ?_) fun x b e => absurd e (hin x b)
  rw [hw]
  exact ⟨fun e => absurd e (hd x), fun e => WorkerPc.noConfusion e⟩

theorem workerPop_inv (hB : Between st pl) {tag : Tag} {real : Bool}
    (hw : s.worker i = .gotByte tag real) (conn : NewConn) (ae : Bool)
    (hst : st → Orderly s (.pop i conn ae)) :
    ∃ pl', Inv n pl' (workerPop n s i tag conn ae) ∧ Between st pl' := by
  unfold workerPop
  cases hq : s.csul i with
  | nil => cases tag <;> exact ⟨pl, h.after_byte hw (by simp) (by simp), hB⟩
  | cons su rest =>
    obtain ⟨num, data⟩ := su
    cases data with
    | listen =>
      have h1 := h.pop_listen hq
      obtain ⟨hsd, hi⟩ := h.placed.queued_num i _ (hq ▸ mem_cons_self) rfl
      cases tag with
      | c =>
        cases conn with
        | failed => exact ⟨pl, h1.after_byte hw (by simp) (by simp), hB⟩
        | created peerid =>
          obtain ⟨pl', h2, hB2⟩ := createClient_inv h1 hB hi hsd peerid
          exact ⟨pl', h2.after_byte hw (by simp) (by simp), hB2⟩
      | j => cases conn <;> exact ⟨pl, h1.after_byte hw (by simp) (by simp), hB⟩
      | b => exact ⟨pl, h.after_byte hw (by simp) (by simp), hB⟩
    | client c =>
      cases tag with
      | j => cases conn <;> exact arrive_inv h hB hw hq ae
      | c =>
        have hns : ¬ st := fun e => Tag.noConfusion (hst e _ _ _ _ hw hq)
        have h1 := h.pop_client hq (.inr rfl) (f := id)
          fun k => ⟨rfl, rfl, rfl, Place.noConfusion, fun _ => rfl⟩
        rw [Sys.setClient_id] at h1
        cases conn <;>
          exact ⟨_, h1.after_byte hw (by simp) (by simp), hB.of_not_strict hns (by simp)⟩
      | b => exact ⟨pl, h.after_byte hw (by simp) (by simp), hB⟩

theorem dispatchConnNew_inv (hn : 0 < n) (hm : s.master = .idle) {sd : ℤ}
    (hsd : 0 < sd) : Inv n pl (dispatchConnNew n s sd) := by
  have hP := h.placed
  have hnot : ∀ idx su, s.master ≠ .hold idx su := by simp [hm]
  have hlt : ((s.lastWorkerThread + 1) % n).toNat < n := by
    have h2 := Int.emod_lt_of_pos (s.lastWorkerThread + 1) (b := (n : ℤ)) (by omega)
    omega
  simp only [dispatchConnNew]
  generalize ((s.lastWorkerThread + 1) % n).toNat = t at hlt ⊢
  have h1 := h.setMaster hnot (v := .notify t .c) (by simp)
  refine ⟨h.phase, { h.lists with },
    { h1.placed with
      queued_nodup := fun j => ?_
      queued_iff := fun j x => ?_
      queued_num := fun j su hsu hl => ?_ }⟩
  all_goals by_cases hj : j = t
  · subst hj
    simpa using hP.queued_nodup j
  · simpa [hj] using hP.queued_nodup j
  · subst hj
    simpa using hP.queued_iff j x
  · simpa [hj] using hP.queued_iff j x
  · subst hj
    simp only [update_self, mem_append, mem_singleton] at hsu
    rcases hsu with hsu | rfl
    · exact hP.queued_num j su hsu hl
    · exact ⟨hsd, hlt⟩
  · simp only [update_of_ne hj] at hsu
    exact hP.queued_num j su hsu hl

theorem Inv.rest_of_mem (hB : Between st pl) (hw : s.worker i = .idle)
    (hc : c ∈ (s.loop i).clients) : pl c = .rest i := by
  rcases (h.placed.clients_iff i c).mp hc with h1 | h1 | h1
  · exact h1
  · rw [(h.placed.dispatch_iff i c).mpr (.inl h1)] at hw
    exact WorkerPc.noConfusion hw
  · exact absurd h1 (hB.busy c i)

theorem Inv.setStreams (tw tm : ℕ → List Tag) :
    Inv n pl { s with toWorker := tw, toMaster := tm } :=
  ⟨h.phase, { h.lists with }, { h.placed with }⟩

end

theorem step_inv (hn : 0 < n) (h : Inv n pl s) (hB : Between st pl) (htidy : Tidy s a)
    (hst : st → Orderly s a) (hstep : step n s a = some s') :
    ∃ pl', Inv n pl' s' ∧ Between st pl' := by
  cases step_cases hstep with
  | acceptFail => exact ⟨pl, h, hB⟩
  | accept hm hsd => exact ⟨pl, dispatchConnNew_inv h hn hm hsd, hB⟩
  | masterWrite hm =>
    exact ⟨pl, (h.setMaster (by simp [hm]) (v := .idle) (by simp)).setStreams _ _, hB⟩
  | @masterRead w tag rest hm hr =>
    exact ⟨pl, (h.setMaster (by simp [hm]) (v := .gotByte w tag true) (by simp)).setStreams _ _, hB⟩
  | masterReadFail hm => exact ⟨pl, h.setMaster (by simp [hm]) (by simp), hB⟩
  | masterPop hm => exact masterPop_inv h hB hm
  | masterPush hm => exact masterPush_inv h hB hm
  | @read i tag rest hw hr =>
    exact ⟨pl, (h.setWorker (i := i) (v := .gotByte tag true) (by simp [hw]) (by simp)).setStreams
      _ _, hB⟩
  | readFail hw => exact ⟨pl, h.setWorker (by simp [hw]) (by simp), hB⟩
  | pop hw => exact workerPop_inv h hB hw _ _ hst
  | @dispatch i c alloc hw =>
    cases alloc with
    | true => exact dispatch_push_inv h hB hw fun k hk h0 => htidy c k hw hk h0
    | false => exact dispatch_fail_inv h hB hw fun e => Bool.noConfusion (hst e)
  | readCuridx hw => exact ⟨pl, h.setWorker (by simp [hw]) (by simp), hB⟩
  | @write i idx ok hw =>
    have h1 := h.setWorker (i := i) (v := .idle) (by simp [hw]) (by simp)
    unfold workerWrite
    split
    · exact ⟨pl, h1.setStreams _ _, hB⟩
    · exact ⟨pl, h1, hB⟩
  | @readQuery i c inp hw hc =>
    have hrest := h.rest_of_mem hB hw hc
    cases inp with
    | closed =>
      obtain ⟨pl', hpl', -⟩ := h.free_between hB hrest (h.not_input hB hw hrest)
      exact ⟨pl', hpl'⟩
    | data rs =>
      have h1 := h.write_rest hrest (f := fun k => { k with querybuf := k.querybuf ++ rs })
        fun _ => ⟨rfl, rfl, rfl, rfl, rfl, rfl⟩
      refine ⟨pl, h1.setWorker (fun x => ?_) fun x b e => ?_, hB⟩
      · rw [show (s.setClient c _).worker i = s.worker i from rfl, hw]
        simp
      · cases e
        exact .inl hrest
  | input hw => exact processInput_inv h hB _ hw
  | sendReply hw hc =>
    obtain ⟨pl', hpl', -⟩ := writeToClient_inv h hB hw (h.rest_of_mem hB hw hc) _
    exact ⟨pl', hpl'⟩
  | beforeSleep _ hw =>
    exact handlePendingWrites_inv _ _ _ (h.lists.pendingWrite.nodup _) h hB hw fun _ hx => hx
  | cron _ hw => exact freeAsync_inv _ (h.lists.toClose.nodup _) h hB hw fun _ hx => hx

end Vire.Jump
