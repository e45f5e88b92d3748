import Vire.Jump.Proofs.Effect
import Vire.Jump.Proofs.Queues
import Vire.Jump.Proofs.Threads

/-!
# Runs without faults

On lossless socket pairs everything is in order at all times: every client has its place, the bytes
match the units, and no worker acts on a byte that was never sent.
-/

namespace Vire.Jump

variable {n ncmd : ℕ} {pl : Cid → Place} {s s' : Sys} {i w m : ℕ} {c : Cid} {a : Act} {q : Request}

structure Good (n : ℕ) (s : Sys) : Prop where
  inv : ∃ pl, Inv n pl s ∧ Between True pl
  ranged : Ranged n s
  matched : Matched n s
  real : ∀ i tag, s.worker i ≠ .gotByte tag false
  alive : s.master ≠ .dead ∧ ∀ i, s.worker i ≠ .dead

theorem Good.notified (h : Good n s) (hl : Lossless a) (hc : Careful s a) : Notified s a := by
  cases a with
  | masterWrite ok => exact hl
  | write i ok => exact hl
  | pop i conn ae => exact fun tag hw => absurd hw (h.real i tag)
  | readCuridx i junk => exact hc
  | _ => trivial

theorem Good.orderly (h : Good n s) (hl : Lossless a) (hc : Careful s a) : Orderly s a := by
  cases a with
  | dispatch i alloc => exact hl
  | pop i conn ae => exact h.matched.takenRight (h.notified hl hc)
  | _ => trivial

theorem Careful.tidy (hc : Careful s a) : Tidy s a := by
  cases a with
  | dispatch i alloc => exact hc
  | _ => trivial

theorem step_real (h : ∀ i tag, s.worker i ≠ .gotByte tag false) (hl : Lossless a)
    (hstep : step n s a = some s') (j : ℕ) (tag : Tag) : s'.worker j ≠ .gotByte tag false := by
  obtain ⟨s₁, hs, hf⟩ := step_shift hstep
  rw [show s'.worker = s₁.worker from congrArg Net.worker hf.net]
  have hset : ∀ {i pc}, pc ≠ .gotByte tag false →
      (s.setWorker i pc).worker j ≠ .gotByte tag false := by
    intro i pc hpc
    by_cases hj : j = i
    · subst hj
      rwa [Sys.setWorker_self]
    · rw [Sys.setWorker_ne _ _ _ hj]
      exact h j tag
  cases hs with
  | master ht hs =>
    rw [(Shared.master_step ht hs).worker j (by simp [ht])]
    exact h j tag
  | readFail => cases hl
  | quiet _ _ hpc | popUnit _ _ hpc =>
    refine hset ?_
    rintro rfl
    cases hpc
  | _ => exact hset (by simp)

theorem Inv.processInput_alive (h : Inv n pl s) (hB : Between True pl) {linked : Bool}
    (hw : s.worker i = .input c linked) (ae : Bool) :
    (processInput n s i c linked ae).worker i ≠ .dead := by
  have hafter : ∀ s1 k, (afterInput s1 i c k linked ae).worker i ≠ .dead := by
    intro s1 k
    unfold afterInput
    split_ifs <;> simp
  obtain ⟨hi, k, hk, hR⟩ := h.rest (h.input_rest hB hw)
  simp only [processInput, hk]
  split
  · next r _ hq hopen =>
    have hsome : ∃ k1, (processCommand n s i c r).client c = some k1 := by
      rcases processCommand_ran hk hR (Nat.zero_lt_of_lt hi) hopen r with
        ⟨K, P, hran⟩ | ⟨-, -, k1, hk1, -⟩
      · exact hran.client_some
      · exact ⟨k1, hk1⟩
    obtain ⟨k1, hk1⟩ := hsome
    simp only [hk1]
    split_ifs
    · exact hafter _ _
    · rw [(processCommand_kept s r).worker, hw]
      simp
  · exact hafter _ _

theorem Inv.arrive_alive (h : Inv n pl s) {num : ℤ} {rest : List ConnSwapUnit}
    (hq : s.csul i = ⟨num, .client c⟩ :: rest) (ae : Bool) :
    (arrive n { s with csul := Function.update s.csul i rest } i c ae).worker i ≠ .dead := by
  obtain ⟨-, -, k, hk, hdet, htar⟩ := h.queued hq
  obtain ⟨r, K, P, w, hran, -⟩ :=
    hdet.ran (s := { s with csul := Function.update s.csul i rest }) hk htar
  obtain ⟨k1, hk1⟩ := hran.client_some
  rw [arrive_eq ae hk1]
  unfold linkClientToEventloop
  split_ifs <;> simp

theorem Inv.held_target (h : Inv n pl s) {idx : ℤ} {su : ConnSwapUnit}
    (hm : s.master = .hold idx su) :
    ∃ c k t, su.data = .client c ∧ s.client c = some k ∧ workerAt n idx = some t ∧ t < n := by
  obtain ⟨c, k, hsu, hk, rfl⟩ := h.placed.held_num idx su hm
  have hph := h.phase c
  rw [(h.placed.held_iff c).mpr ⟨_, su, hm, hsu⟩] at hph
  obtain ⟨k', hk', hd⟩ := hph
  rw [hk] at hk'
  cases hk'
  obtain ⟨j, hj, hJ⟩ := hd.jumping
  exact ⟨c, k, (j + 1) % n, hsu, hk, by rw [hJ.taridx, workerAt_next hj],
    Nat.mod_lt _ (Nat.zero_lt_of_lt hj)⟩

theorem Inv.step_alive (h : Inv n pl s) (hB : Between True pl) (ho : Orderly s a)
    (halive : s.master ≠ .dead ∧ ∀ i, s.worker i ≠ .dead) (hstep : step n s a = some s') :
    s'.master ≠ .dead ∧ ∀ i, s'.worker i ≠ .dead := by
  have hsh := step_shared hstep
  constructor
  · by_cases ht : a.thread = none
    · cases step_cases hstep with
      | acceptFail => exact halive.1
      | accept | masterRead | masterReadFail | masterWrite =>
        simp [dispatchConnNew, masterWrite]
      | masterPop =>
        unfold masterPop
        split <;> simp
      | masterPush hm =>
        obtain ⟨-, -, t, -, -, hat, -⟩ := h.held_target hm
        simp [masterPush, hat]
      | _ => exact absurd ht (by simp [Act.thread])
    · rw [hsh.master ht]
      exact halive.1
  · intro j
    by_cases ht : a.thread = some j
    · cases step_cases hstep with
      | acceptFail | accept | masterRead | masterReadFail | masterWrite | masterPop | masterPush =>
        exact absurd ht (by simp [Act.thread])
      | read | readFail | readCuridx =>
        cases ht
        simp
      | @pop i tag real conn ae hw =>
        obtain rfl : i = j := Option.some.inj ht
        unfold workerPop
        split
        · simp
        · simp
        · next su rest _ hq =>
          have htag := ho _ real su rest hw hq
          obtain ⟨num, data⟩ := su
          dsimp only
          split
          · simp
          · simp
          · exact h.arrive_alive hq ae
          · next hclient hfailed hcreated =>
            -- the tag says what the unit is, so no case is left
            cases data with
            | listen =>
              cases conn with
              | failed => exact absurd rfl (hfailed htag rfl)
              | created peerid => exact absurd rfl (hcreated peerid htag rfl)
            | client c => exact absurd rfl (hclient c htag)
      | @dispatch i c alloc hw =>
        obtain rfl : i = j := Option.some.inj ht
        obtain ⟨-, k, hk, -⟩ := h.dispatching hw
        have halloc : alloc = true := ho
        simp [dispatchConnExist, hk, halloc]
      | write =>
        cases ht
        unfold workerWrite
        split <;> simp
      | @readQuery i c inp hw hc =>
        obtain rfl : i = j := Option.some.inj ht
        cases inp with
        | closed =>
          rw [readQueryFromClient, (freeClient_kept (e := True) s i c).worker]
          exact halive.2 i
        | data rs => simp [readQueryFromClient]
      | input hw =>
        cases ht
        exact h.processInput_alive hB hw _
      | sendReply =>
        rw [(writeToClient_kept (e := True) ..).worker]
        exact halive.2 j
      | beforeSleep =>
        rw [handleClientsWithPendingWrites,
          (Kept.foldl (handlePendingWrite_kept (e := True) _ _ _) _ s).worker]
        exact halive.2 j
      | cron =>
        rw [freeClientsInAsyncFreeQueue, (Kept.foldl (freeAsyncOne_kept (e := True) _) _ s).worker]
        exact halive.2 j
    · rw [hsh.worker j ht]
      exact halive.2 j

theorem step_good (hn : 0 < n) (h : Good n s) (hl : Lossless a) (hc : Careful s a)
    (hstep : step n s a = some s') : Good n s' := by
  obtain ⟨pl, hI, hB⟩ := h.inv
  exact ⟨step_inv hn hI hB hc.tidy (fun _ => h.orderly hl hc) hstep,
    step_ranged hn h.ranged hstep, step_matched h.matched h.ranged (h.notified hl hc) hstep,
    step_real h.real hl hstep, hI.step_alive hB (h.orderly hl hc) h.alive hstep⟩

theorem good_of_run (hn : 0 < n) (r : ServerRun n ncmd) (hl : r.Meets fun _ a => Lossless a)
    (hc : r.Meets Careful) (m : ℕ) : Good n (r.state m) :=
  r.invariant (I := Good n) (G := fun s a => Lossless a ∧ Careful s a)
    (fun m a ha => ⟨hl m a ha, hc m a ha⟩)
    ⟨⟨_, init_inv n ncmd, init_between True⟩, init_ranged n ncmd, init_matched n ncmd,
      fun _ _ => by simp [init], by simp [init]⟩
    (fun _ _ _ h hG hstep => step_good hn h hG.1 hG.2 hstep) m

end Vire.Jump
