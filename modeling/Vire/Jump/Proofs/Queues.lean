import Vire.Jump.Proofs.Matched

/-!
# No unit is stranded or mistaken

In every run in which no notification is lost, a worker takes every unit for what it is, and the
queues are empty whenever no byte is under way.  A single failed write or read breaks either half.
-/

namespace Vire.Jump

open List

variable {n ncmd : ℕ} {s : Sys} {a : Act}

theorem Matched.takenRight (h : Matched n s) (hnot : Notified s a) : TakenRight s a := by
  cases a with
  | pop i conn ae =>
    intro tag real su rest hw hq
    cases real with
    | false =>
      rw [hnot tag hw] at hq
      cases hq
    | true =>
      obtain ⟨su', rest', hq', htag⟩ := h.head_tag hw
      rw [hq] at hq'
      cases hq'
      exact htag
  | _ => trivial

theorem Silent.tags (h : Silent s) (i : ℕ) : (s.worker i).tags = [] ∧ (s.worker i).owes = 0 := by
  obtain ⟨h1, h2, h3⟩ := h.worker i
  cases hw : s.worker i with
  | gotByte tag real => exact absurd hw (h1 tag real)
  | pushed c => exact absurd hw (h2 c)
  | notify idx => exact absurd hw (h3 idx)
  | _ => exact ⟨rfl, rfl⟩

theorem Silent.master_tags (h : Silent s) : s.master.has = 0 ∧ ∀ t, s.master.tags t = [] := by
  cases hm : s.master with
  | gotByte w tag real => exact absurd hm (h.master.1 w tag real)
  | notify w tag => exact absurd hm (h.master.2 w tag)
  | _ => exact ⟨rfl, fun _ => rfl⟩

theorem Matched.empty_of_silent (h : Matched n s) (hs : Silent s) :
    s.cbsul = [] ∧ ∀ i, s.csul i = [] := by
  obtain ⟨hhas, htags⟩ := hs.master_tags
  refine ⟨?_, fun i => ?_⟩
  · have htok : tokens n s = 0 := by
      rw [tokens, hhas, Nat.zero_add]
      refine Finset.sum_eq_zero fun w _ => ?_
      simp [hs.toMaster, (hs.tags w).2]
    have := h.master
    rw [htok] at this
    exact length_eq_zero_iff.mp (Nat.le_zero.mp this)
  · have := h.worker i
    rwa [(hs.tags i).1, hs.toWorker, htags, append_nil, append_nil,
      map_eq_nil_iff] at this

theorem matched_of_run (hn : 0 < n) (r : ServerRun n ncmd) (hr : r.Meets Notified) (m : ℕ) :
    Ranged n (r.state m) ∧ Matched n (r.state m) :=
  r.invariant (I := fun s => Ranged n s ∧ Matched n s) hr ⟨init_ranged n ncmd, init_matched n ncmd⟩
    (fun _ _ _ ⟨hR, hM⟩ hnot hstep => ⟨step_ranged hn hR hstep, step_matched hM hR hnot hstep⟩) m

/-- If no notification is lost, then no unit is mistaken for one of the other kind, and none is left
in a queue when all is silent. -/
theorem queues_empty_of_notified (hn : 0 < n) (r : ServerRun n ncmd) (hr : r.Meets Notified) :
    r.Meets TakenRight ∧
      ∀ m, Silent (r.state m) → (r.state m).cbsul = [] ∧ ∀ i, (r.state m).csul i = [] :=
  ⟨fun m a ha => (matched_of_run hn r hr m).2.takenRight (hr m a ha),
    fun m hs => (matched_of_run hn r hr m).2.empty_of_silent hs⟩

def sendToOne : List Act :=
  connects 0 5 ++ [.readQuery 0 0 (.data [⟨.client, [ascii ['l', 'i', 's', 't']], 0, 0⟩]),
    .input 0 true,
    .dispatch 0 true, .readCuridx 0 0, .write 0 true, .masterRead 0 true, .masterPop, .masterPush,
    .masterWrite true]

theorem queues_empty_sendToOne : ∃ r : ServerRun 2 0, r.Meets TakenRight ∧
    ((r.state 13).csul 1).length = 1 ∧ ¬ Silent (r.state 13) := by
  let r : ServerRun 2 0 := .ofList sendToOne (by decide)
  have h := queues_empty_of_notified (by decide) r (Logic.Run.ofList_meets _ (by decide))
  have hlen : ((r.state 13).csul 1).length = 1 := by decide
  refine ⟨r, h.1, hlen, fun hs => ?_⟩
  rw [(h.2 13 hs).2 1] at hlen
  cases hlen

/-- The byte of a new connection cannot be written: its unit stays in the queue.  A read that
returns no byte makes worker 1 take a client that jumped to it for a new connection. -/
theorem unit_stranded_or_mistaken :
    (∃ r : ServerRun 1 0, Silent (r.state 2) ∧ (r.state 2).csul 0 = [⟨5, .listen⟩]) ∧
    ∃ (r : ServerRun 2 0) (m : ℕ) (i : ℕ) (su : ConnSwapUnit) (rest : List ConnSwapUnit),
      r.act m = some (.pop i .failed true) ∧ (r.state m).worker i = .gotByte .c false ∧
      (r.state m).csul i = su :: rest ∧ su.data = .client 0 := by
  constructor
  · let r : ServerRun 1 0 := .ofList [.accept 5 true, .masterWrite false] (by decide)
    have hm : (r.state 2).master = .idle := by decide
    have hw : ∀ i, (r.state 2).worker i = .idle := fun _ => rfl
    exact ⟨r, ⟨fun _ => rfl, fun _ => rfl, by simp [hm], fun i => by simp [hw i]⟩, by decide⟩
  · let r : ServerRun 2 0 := .ofList (sendToOne ++ [.read 1 false, .pop 1 .failed true]) (by decide)
    exact ⟨r, 14, 1, ⟨0, .client 0⟩, [], rfl, by decide, by decide, rfl⟩

end Vire.Jump
