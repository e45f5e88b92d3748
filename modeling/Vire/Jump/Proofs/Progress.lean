import Vire.Jump.Proofs.Execution

/-!
# A client that moves arrives

In a fair run without faults a client under way gets to its next worker.  The position of the client
in a queue is what goes down, because there is a byte for every unit.
-/

namespace Vire.Jump

open List Logic

variable {n ncmd : ℕ} {s s' : Sys} {a : Act} {i j w p m : ℕ} {c : Cid} {H : List Event}

structure Faultless (r : ServerRun n ncmd) : Prop where
  good : ∀ m, Good n (r.state m)
  lossless : r.Meets fun _ a => Lossless a
  careful : r.Meets Careful
  fair : Fair r

def Dispatching (c : Cid) (H : List Event) (j : ℕ) (s : Sys) : Prop :=
  s.hist c = H ∧ s.worker j = .dispatch c

/-- The client is the `p`-th unit in the queue of the master. -/
def InBack (c : Cid) (H : List Event) (p : ℕ) (s : Sys) : Prop :=
  s.hist c = H ∧ ∃ u, s.cbsul[p]? = some u ∧ u.data = .client c

def InHold (c : Cid) (H : List Event) (s : Sys) : Prop :=
  s.hist c = H ∧ ∃ idx su, s.master = .hold idx su ∧ su.data = .client c

/-- The client is the `p`-th unit in the queue of worker `i`. -/
def InQueue (c : Cid) (H : List Event) (i p : ℕ) (s : Sys) : Prop :=
  s.hist c = H ∧ ∃ u, (s.csul i)[p]? = some u ∧ u.data = .client c

def Moved (c : Cid) (H : List Event) (s : Sys) : Prop := s.hist c ≠ H

def BackNext (c : Cid) (H : List Event) (p : ℕ) (s : Sys) : Prop :=
  (∃ p' < p, InBack c H p' s) ∨ InHold c H s ∨ Moved c H s

def QueueNext (c : Cid) (H : List Event) (i p : ℕ) (s : Sys) : Prop :=
  (∃ p' < p, InQueue c H i p' s) ∨ Moved c H s

theorem getElem?_extend {α : Type*} {l l' : List α} (h : l <+: l') {x : α}
    (hp : l[p]? = some x) : l'[p]? = some x := by
  obtain ⟨k, rfl⟩ := h
  rw [getElem?_append_left (List.getElem?_eq_some_iff.mp hp).1]
  exact hp

theorem unitClients_index {l : List ConnSwapUnit} (hmem : c ∈ unitClients l) :
    ∃ (p : ℕ) (u : ConnSwapUnit), l[p]? = some u ∧ u.data = .client c := by
  obtain ⟨u, hu, hc⟩ := mem_filterMap.mp hmem
  obtain ⟨p, hp⟩ := getElem?_of_mem hu
  refine ⟨p, u, hp, ?_⟩
  cases hd : u.data with
  | listen => simp [hd] at hc
  | client x => simpa [hd] using hc

section Live

variable {r : ServerRun n ncmd} {I Q R : Sys → Prop}

theorem Faultless.worker (h : Faultless r) (hI : r.Until I Q) (i : ℕ) {P : WorkerPc → Prop}
    (hidle : ¬ P .idle) (hown : ∀ m a, I (r.state m) → P ((r.state m).worker i) → r.act m = some a →
      a.thread = some i → R (r.state (m + 1)) ∨ Q (r.state (m + 1)))
    (hR : r.LeadsTo (fun s => I s ∧ R s) Q) : r.LeadsTo (fun s => I s ∧ P (s.worker i)) Q := by
  have hbusy : ∀ m, P ((r.state m).worker i) → (r.state m).worker i ≠ .idle :=
    fun m hP heq => hidle (heq ▸ hP)
  by_cases hi : i < n
  swap
  · exact fun m hP => absurd ((h.good m).ranged.worker i (Nat.le_of_not_lt hi)) (hbusy m hP.2)
  refine (h.fair.worker i hi).leadsTo_until hI (fun m hP => ⟨hbusy m hP, (h.good m).alive.2 i⟩)
    (fun m a hP ha ht => ?_) hown hR
  rwa [(step_shared (r.step_eq ha)).worker i ht]

theorem Faultless.master (h : Faultless r) (hI : r.Until I Q) {P : MasterPc → Prop}
    (hidle : ¬ P .idle)
    (hown : ∀ m a, I (r.state m) → P (r.state m).master → r.act m = some a → a.thread = none →
      R (r.state (m + 1)) ∨ Q (r.state (m + 1)))
    (hR : r.LeadsTo (fun s => I s ∧ R s) Q) : r.LeadsTo (fun s => I s ∧ P s.master) Q := by
  refine h.fair.master.leadsTo_until hI
    (fun m hP => ⟨fun heq => hidle (heq ▸ hP), (h.good m).alive.1⟩) (fun m a hP ha ht => ?_) hown hR
  rwa [(step_shared (r.step_eq ha)).master ht]

theorem leadsTo_of_false : r.LeadsTo (fun s => I s ∧ False) Q := fun _ hP => hP.2.elim

theorem hist_until {H' : List Event} (hQ : ∀ s, Moved c H' s → Q s) :
    r.Until (fun s => s.hist c = H') Q := by
  intro m a _ _
  by_cases hh : (r.state (m + 1)).hist c = H'
  · exact .inl hh
  · exact .inr (hQ _ hh)

end Live

theorem back_step (hstep : step n s a = some s') (hb : InBack c H p s) :
    InBack c H p s' ∨ BackNext c H p s' := by
  by_cases hh : s'.hist c = H
  · obtain ⟨-, u, hu, hc⟩ := hb
    rcases (step_shared hstep).cbsul with hpre | ⟨w, tag, real, su, -, hq, hm⟩
    · exact .inl ⟨hh, u, getElem?_extend hpre hu, hc⟩
    · rw [hq] at hu
      cases p with
      | zero =>
        cases hu
        exact .inr (.inr (.inl ⟨hh, _, _, hm, hc⟩))
      | succ p => exact .inr (.inl ⟨p, Nat.lt_succ_self p, hh, u, hu, hc⟩)
  · exact .inr (.inr (.inr hh))

section Back

variable {r : ServerRun n ncmd} (h : Faultless r)
include h

omit h in
theorem back_until : r.Until (InBack c H p) (BackNext c H p) :=
  fun _ _ hb ha => back_step (r.step_eq ha) hb

theorem back_gotByte : r.LeadsTo
    (fun s => InBack c H p s ∧ ∃ w tag, s.master = .gotByte w tag true) (BackNext c H p) := by
  refine h.master (back_until) (P := fun pc => ∃ w tag, pc = .gotByte w tag true) (by simp)
    (fun m a hb hP ha ht => .inr ?_) leadsTo_of_false
  obtain ⟨⟨hh, u, hu, hc⟩, w, tag, hm⟩ := hb, hP
  rw [master_gotByte (r.step_eq ha) ht hm, (h.good m).matched.byte w tag true hm]
  cases hq : (r.state m).cbsul with
  | nil =>
    rw [hq] at hu
    cases hu
  | cons su rest =>
    rw [hq] at hu
    simp only [masterPop, hq]
    cases p with
    | zero =>
      cases hu
      exact .inr (.inl ⟨hh, _, _, rfl, hc⟩)
    | succ p => exact .inl ⟨p, Nat.lt_succ_self p, hh, u, hu, hc⟩

theorem back_toMaster (w : ℕ) : r.LeadsTo
    (fun s => InBack c H p s ∧ s.toMaster w ≠ []) (BackNext c H p) := by
  by_cases hw : w < n
  swap
  · exact fun m hP => absurd ((h.good m).matched.range w (Nat.le_of_not_lt hw)).1 hP.2
  refine (h.fair.masterRead w hw).leadsTo_until (back_until)
    (fun m hP => ⟨hP, (h.good m).alive.1⟩) (fun m a hP ha ht he => hP ?_)
    (fun m a _ _ ha ht => .inl ?_) (back_gotByte h)
  · have hpre := ((step_shared (r.step_eq ha)).toMaster w).resolve_right ht
    rw [he] at hpre
    exact prefix_nil.mp hpre
  · subst ht
    generalize r.state (m + 1) = s', r.step_eq ha = hstep at *
    cases step_cases hstep with
    | masterRead => exact ⟨_, _, rfl⟩

theorem back_notify (i : ℕ) : r.LeadsTo
    (fun s => InBack c H p s ∧ ∃ idx, s.worker i = .notify idx) (BackNext c H p) := by
  refine h.worker (back_until) i (P := fun pc => ∃ idx, pc = .notify idx) (by simp)
    (R := fun s => ∃ w, s.toMaster w ≠ []) (fun m a _ hP ha ht => .inl ?_) fun m hP => ?_
  · obtain ⟨idx, hw⟩ := hP
    obtain ⟨ok, rfl, he⟩ := worker_notify (r.step_eq ha) ht hw
    have hok : ok = true := h.lossless m _ ha
    obtain ⟨w, -, hat⟩ := (h.good m).matched.notify i idx hw
    refine ⟨w, ?_⟩
    rw [he, hok]
    simp [workerWrite, hat]
  · obtain ⟨hb, w, hw⟩ := hP
    exact back_toMaster h w m ⟨hb, hw⟩

theorem back_pushed (i : ℕ) (x : Cid) : r.LeadsTo
    (fun s => InBack c H p s ∧ s.worker i = .pushed x) (BackNext c H p) := by
  refine h.worker (back_until) i (P := (· = .pushed x)) (by simp)
    (fun m a _ hP ha ht => .inl ?_) (back_notify h i)
  obtain ⟨idx, he⟩ := worker_pushed (r.step_eq ha) ht hP
  exact ⟨idx, by rw [he, Sys.setWorker_self]⟩

theorem back_next : r.LeadsTo (InBack c H p) (BackNext c H p) := by
  intro m hb
  have hlen : 0 < (r.state m).cbsul.length := by
    obtain ⟨-, u, hu, -⟩ := hb
    exact Nat.zero_lt_of_lt (List.getElem?_eq_some_iff.mp hu).1
  have htok := Nat.lt_of_lt_of_le hlen (h.good m).matched.master
  unfold tokens at htok
  by_cases hhas : (r.state m).master.has = 0
  · rw [hhas, Nat.zero_add] at htok
    obtain ⟨w, -, hw⟩ := Finset.exists_ne_zero_of_sum_ne_zero htok.ne'
    by_cases hbytes : (r.state m).toMaster w = []
    · rw [hbytes, length_nil, Nat.zero_add] at hw
      cases hpc : (r.state m).worker w with
      | pushed x => exact back_pushed h w x m ⟨hb, hpc⟩
      | notify idx => exact back_notify h w m ⟨hb, idx, hpc⟩
      | _ =>
        rw [hpc] at hw
        exact absurd rfl hw
    · exact back_toMaster h w m ⟨hb, hbytes⟩
  · cases hm : (r.state m).master with
    | gotByte w tag real =>
      cases real with
      | true => exact back_gotByte h m ⟨hb, w, tag, hm⟩
      | false =>
        rw [hm] at hhas
        exact absurd rfl hhas
    | _ =>
      rw [hm] at hhas
      exact absurd rfl hhas

theorem back_leadsTo (p : ℕ) : r.LeadsTo (InBack c H p) fun s => InHold c H s ∨ Moved c H s := by
  induction p using Nat.strongRecOn with
  | ind p ih =>
    refine (back_next h).trans_or fun m hP => ?_
    obtain ⟨p', hp', hb⟩ := hP
    exact ih p' hp' m hb

end Back

theorem queue_pop (hg : Good n s) {tag : Tag} {real : Bool} {conn : NewConn} {ae : Bool}
    (hw : s.worker i = .gotByte tag real) (hq : InQueue c H i p s) :
    QueueNext c H i p (workerPop n s i tag conn ae) := by
  obtain ⟨hh, u, hu, hc⟩ := hq
  obtain ⟨pl, hI, -⟩ := hg.inv
  have hreal : real = true := by
    by_contra hf
    rw [Bool.not_eq_true] at hf
    exact hg.real i tag (hf ▸ hw)
  obtain ⟨⟨num, data⟩, rest, hcs, rfl⟩ := hg.matched.head_tag (hreal ▸ hw)
  by_cases hh' : (workerPop n s i data.tag conn ae).hist c = H
  swap
  · exact .inr hh'
  have hrest : (workerPop n s i data.tag conn ae).csul i = rest := by
    cases data with
    | listen => cases conn <;> simp [workerPop, hcs, Data.tag, createClient, Sys.setLoop]
    | client x =>
      obtain ⟨pc, -, hk⟩ :=
        arrive_handled (n := n) { s with csul := Function.update s.csul i rest } i x ae
      have := congrArg (fun net => net.csul i) hk.net
      simpa [workerPop, hcs, Data.tag, Sys.net] using this
  rw [hcs] at hu
  cases p with
  | zero =>
    cases hu
    cases hc
    have hne := arrive_hist_ne hI hcs ae
    simp only [workerPop, hcs, Data.tag] at hh'
    exact absurd (hh'.trans hh.symm) hne
  | succ p => exact .inl ⟨p, Nat.lt_succ_self p, hh', u, by rw [hrest]; exact hu, hc⟩

theorem queue_step (hg : Good n s) (hstep : step n s a = some s') (hq : InQueue c H i p s) :
    InQueue c H i p s' ∨ QueueNext c H i p s' := by
  rcases (step_shared hstep).csul i with hpre | ⟨tag, real, su, ht, hw, -⟩
  · by_cases hh : s'.hist c = H
    · obtain ⟨-, u, hu, hc⟩ := hq
      exact .inl ⟨hh, u, getElem?_extend hpre hu, hc⟩
    · exact .inr (.inr hh)
  · obtain ⟨conn, ae, -, rfl⟩ := worker_gotByte hstep ht hw
    exact .inr (queue_pop hg hw hq)

section Queue

variable {r : ServerRun n ncmd} (h : Faultless r)
include h

theorem queue_until : r.Until (InQueue c H i p) (QueueNext c H i p) :=
  fun m _ hq ha => queue_step (h.good m) (r.step_eq ha) hq

theorem queue_gotByte : r.LeadsTo
    (fun s => InQueue c H i p s ∧ ∃ tag real, s.worker i = .gotByte tag real)
    (QueueNext c H i p) := by
  refine h.worker (queue_until h) i (P := fun pc => ∃ tag real, pc = .gotByte tag real) (by simp)
    (fun m a hq hP ha ht => .inr ?_) leadsTo_of_false
  obtain ⟨tag, real, hw⟩ := hP
  obtain ⟨conn, ae, -, he⟩ := worker_gotByte (r.step_eq ha) ht hw
  rw [he]
  exact queue_pop (h.good m) hw hq

theorem queue_toWorker : r.LeadsTo
    (fun s => InQueue c H i p s ∧ s.toWorker i ≠ []) (QueueNext c H i p) := by
  by_cases hi : i < n
  swap
  · exact fun m hP => absurd ((h.good m).ranged.toWorker i (Nat.le_of_not_lt hi)) hP.2
  refine (h.fair.read i hi).leadsTo_until (queue_until h)
    (fun m hP => ⟨hP, (h.good m).alive.2 i⟩) (fun m a hP ha ht he => hP ?_)
    (fun m a _ _ ha ht => .inl ?_) (queue_gotByte h)
  · have hpre := ((step_shared (r.step_eq ha)).toWorker i).resolve_right ht
    rw [he] at hpre
    exact prefix_nil.mp hpre
  · subst ht
    generalize r.state (m + 1) = s', r.step_eq ha = hstep at *
    cases step_cases hstep with
    | read => exact ⟨_, _, Sys.setWorker_self ..⟩

theorem queue_notify : r.LeadsTo
    (fun s => InQueue c H i p s ∧ ∃ tag, s.master = .notify i tag) (QueueNext c H i p) := by
  refine h.master (queue_until h) (P := fun pc => ∃ tag, pc = .notify i tag) (by simp)
    (fun m a _ hP ha ht => .inl ?_) (queue_toWorker h)
  obtain ⟨tag, hm⟩ := hP
  obtain ⟨ok, rfl, he⟩ := master_notify (r.step_eq ha) ht hm
  have hok : ok = true := h.lossless m _ ha
  rw [he, hok]
  simp [masterWrite]

theorem queue_next : r.LeadsTo (InQueue c H i p) (QueueNext c H i p) := by
  intro m hq
  have hne : ((r.state m).csul i).map (·.data.tag) ≠ [] := by
    obtain ⟨-, u, hu, -⟩ := hq
    intro he
    rw [map_eq_nil_iff.mp he] at hu
    cases hu
  rw [(h.good m).matched.worker i] at hne
  by_cases hpc : ((r.state m).worker i).tags = []
  · by_cases hbytes : (r.state m).toWorker i = []
    · rw [hpc, hbytes, nil_append, nil_append] at hne
      cases hm : (r.state m).master with
      | notify t tag =>
        rw [hm] at hne
        by_cases hti : t = i
        · subst hti
          exact queue_notify h m ⟨hq, tag, hm⟩
        · exact absurd (if_neg hti) hne
      | _ =>
        rw [hm] at hne
        exact absurd rfl hne
    · exact queue_toWorker h m ⟨hq, hbytes⟩
  · cases hw : (r.state m).worker i with
    | gotByte tag real => exact queue_gotByte h m ⟨hq, tag, real, hw⟩
    | _ =>
      rw [hw] at hpc
      exact absurd rfl hpc

theorem queue_leadsTo (p : ℕ) : r.LeadsTo (InQueue c H i p) (Moved c H) := by
  induction p using Nat.strongRecOn with
  | ind p ih =>
    refine (queue_next h).trans_or fun m hP => ?_
    obtain ⟨p', hp', hq⟩ := hP
    exact ih p' hp' m hq

end Queue

section Journey

variable {r : ServerRun n ncmd} (h : Faultless r)
include h

theorem hold_leadsTo : r.LeadsTo (InHold c H) fun s =>
    (∃ i p, InQueue c H i p s) ∨ Moved c H s := by
  refine h.master (hist_until fun _ => .inr)
    (P := fun pc => ∃ idx su, pc = .hold idx su ∧ su.data = .client c) (by simp)
    (fun m a hh hP ha ht => .inr (.inl ?_)) leadsTo_of_false
  obtain ⟨idx, su, hm, hc⟩ := hP
  obtain ⟨pl, hI, -⟩ := (h.good m).inv
  obtain ⟨-, -, t, -, -, hat, -⟩ := hI.held_target hm
  rw [master_hold (r.step_eq ha) ht hm]
  refine ⟨t, ((r.state m).csul t).length, ?_, su, ?_, hc⟩
  · simpa [masterPush, hat] using hh
  · simp [masterPush, hat]

theorem dispatch_leadsTo (j : ℕ) : r.LeadsTo (Dispatching c H j) fun s =>
    (∃ p, InBack c H p s) ∨ Moved c H s := by
  refine h.worker (hist_until fun _ => .inr) j (P := (· = .dispatch c)) (by simp)
    (fun m a hh hw ha ht => .inr (.inl ?_)) leadsTo_of_false
  obtain ⟨alloc, rfl, he⟩ := worker_dispatch (r.step_eq ha) ht hw
  have halloc : alloc = true := h.lossless m _ ha
  obtain ⟨pl, hI, -⟩ := (h.good m).inv
  obtain ⟨-, k, hk, -⟩ := hI.dispatching hw
  have hcb : (unlinkClientFromEventloop (r.state m) j c).cbsul = (r.state m).cbsul :=
    congrArg Net.cbsul (unlinkClientFromEventloop_kept (e := True) ..).net
  refine ⟨(r.state m).cbsul.length, ?_, ⟨k.taridx, .client c⟩, ?_, rfl⟩
  · exact (congrFun (step_hist (r.step_eq ha) id) c).trans hh
  · rw [he, halloc]
    simp [dispatchConnExist, hk, hcb]

theorem back_moves (p : ℕ) : r.LeadsTo (InBack c H p) (Moved c H) := by
  refine (back_leadsTo h p).trans_or fun m hP => ?_
  refine (hold_leadsTo h).trans_or (fun m hP => ?_) m hP
  obtain ⟨i, p, hq⟩ := hP
  exact queue_leadsTo h p m hq

variable {q : Request} {t : ℕ}

theorem underWay_moves {h0 : List Event} (hH : H = h0 ++ .issue w q :: runs n w (t + 1)) :
    r.LeadsTo (fun s => s.hist c = H) (Moved c H) := by
  intro m hh
  obtain ⟨pl, hI, hB⟩ := (h.good m).inv
  have hdispatch : ∀ j, (r.state m).worker j = .dispatch c →
      ∃ m' ≥ m, Moved c H (r.state m') := by
    intro j hw
    refine (dispatch_leadsTo h j).trans_or (fun m hP => ?_) m ⟨hh, hw⟩
    obtain ⟨p, hb⟩ := hP
    exact back_moves h p m hb
  obtain ⟨-, j, -, -, -, -, -, hp | hp | hp | hp | ⟨i, hp, -⟩⟩ := hI.underWay hB (hh.trans hH)
  · exact hdispatch j ((hI.placed.dispatch_iff j c).mpr (.inl hp))
  · exact hdispatch j ((hI.placed.dispatch_iff j c).mpr (.inr hp))
  · obtain ⟨p, u, hu, hc⟩ := unitClients_index ((hI.placed.back_iff c).mpr hp)
    exact back_moves h p m ⟨hh, u, hu, hc⟩
  · refine (hold_leadsTo h).trans_or (fun m hP => ?_) m ⟨hh, (hI.placed.held_iff c).mp hp⟩
    obtain ⟨i, p, hq⟩ := hP
    exact queue_leadsTo h p m hq
  · obtain ⟨p, u, hu, hc⟩ := unitClients_index ((hI.placed.queued_iff i c).mpr hp)
    exact queue_leadsTo h p m ⟨hh, u, hu, hc⟩

theorem next_visit {h₀ : List Event}
    (hh : (r.state m).hist c = h₀ ++ .issue w q :: runs n w (t + 1)) :
    ∃ m' ≥ m, ∃ k0 K P s0 s1, Visit n c w q h₀ (t + 1) k0 K P (r.state m') s0 s1
      (r.state (m' + 1)) ∧ (r.Meets (fun _ a => Registered a) →
        (r.state (m' + 1)).client c ≠ none) := by
  obtain ⟨m1, hm1, hmoved⟩ := underWay_moves h rfl m hh
  -- the first position at which the history is a different one
  have hex : ∃ d, Moved c (h₀ ++ .issue w q :: runs n w (t + 1)) (r.state (m + d)) :=
    ⟨m1 - m, by rwa [Nat.add_sub_cancel' hm1]⟩
  classical
  obtain ⟨d, hd⟩ : ∃ d, Nat.find hex = d + 1 := by
    refine Nat.exists_eq_succ_of_ne_zero fun h0 => ?_
    have := Nat.find_spec hex
    rw [h0] at this
    exact this hh
  have hbefore : (r.state (m + d)).hist c = h₀ ++ .issue w q :: runs n w (t + 1) :=
    not_not.mp (Nat.find_min hex (by omega : d < Nat.find hex))
  have hafter := Nat.find_spec hex
  rw [hd, ← Nat.add_assoc] at hafter
  cases ha : r.act (m + d) with
  | none =>
    rw [r.pause_eq ha] at hafter
    exact absurd hbefore hafter
  | some a =>
    obtain ⟨pl, hI, hB⟩ := (h.good (m + d)).inv
    rcases hI.visit_next hB (r.step_eq ha) hbefore with he | ⟨k, K, P, s0, s1, -, hv, halive⟩
    · exact absurd (he.trans hbefore) hafter
    · exact ⟨m + d, Nat.le_add_right m d, _, K, P, s0, s1, hv, fun hreg => halive (hreg _ a ha)⟩

theorem visit_ends (hreg : r.Meets fun _ a => Registered a) {h0 : List Event}
    (ht : t + 1 < n) (hh : (r.state m).hist c = h0 ++ .issue w q :: runs n w (t + 1)) :
    ∃ m' > m, ∃ rep, (r.state m').hist c = h0 ++ block n w q rep ∧
      (r.state m').client c ≠ none := by
  -- by induction on the number of workers still to be visited
  induction hd : n - t using Nat.strongRecOn generalizing m t with
  | ind d ih =>
    obtain ⟨m1, hm1, k0, K, P, s0, s1, hv, halive⟩ := next_visit h hh
    rcases Nat.lt_or_eq_of_le (Nat.succ_le_of_lt ht) with hlt | heq
    · obtain ⟨m', hm', hend⟩ := ih (n - (t + 1)) (by omega) hlt (hv.goes_on hlt).1 rfl
      exact ⟨m', by omega, hend⟩
    · exact ⟨m1 + 1, by omega, _, hv.done heq, halive hreg⟩

end Journey

end Vire.Jump
