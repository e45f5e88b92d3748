import Vire.Jump.Proofs.Frame

/-!
# What the threads do to each other

A thread only appends to a queue or a stream that another thread reads, and a thread in the middle
of a handler has one step it can take.
-/

namespace Vire.Jump

open List

variable {n : ℕ} {s s' s₁ : Sys} {i : ℕ} {c : Cid} {a : Act}

/-- What a step does to the places of the threads, to the queues and to the streams. -/
structure Shared (s : Sys) (a : Act) (s' : Sys) : Prop where
  master : a.thread ≠ none → s'.master = s.master
  worker : ∀ i, a.thread ≠ some i → s'.worker i = s.worker i
  cbsul : s.cbsul <+: s'.cbsul ∨ ∃ w tag real su, s.master = .gotByte w tag real ∧
    s.cbsul = su :: s'.cbsul ∧ s'.master = .hold su.num { su with num := w }
  csul : ∀ i, s.csul i <+: s'.csul i ∨ ∃ tag real su, a.thread = some i ∧
    s.worker i = .gotByte tag real ∧ s.csul i = su :: s'.csul i
  toMaster : ∀ w, s.toMaster w <+: s'.toMaster w ∨ a = .masterRead w true
  toWorker : ∀ i, s.toWorker i <+: s'.toWorker i ∨ a = .read i true

theorem Shared.of_net (h : Shared s a s₁) (hnet : s'.net = s₁.net) : Shared s a s' := by
  cases s'
  obtain ⟨rfl, rfl, rfl, rfl, rfl, rfl, rfl⟩ := Net.mk.inj hnet
  exact { h with }

theorem Shared.refl (s : Sys) (a : Act) : Shared s a s :=
  ⟨fun _ => rfl, fun _ _ => rfl, .inl prefix_rfl, fun _ => .inl prefix_rfl,
    fun _ => .inl prefix_rfl, fun _ => .inl prefix_rfl⟩

theorem Shared.setWorker (s : Sys) (ht : a.thread = some i) (pc : WorkerPc) :
    Shared s a (s.setWorker i pc) := by
  refine { Shared.refl s a with worker := fun j hj => s.setWorker_ne i pc ?_ }
  rintro rfl
  exact hj ht

theorem prefix_update {α : Type*} (f : ℕ → List α) (t : ℕ) (l : List α) (j : ℕ) :
    f j <+: Function.update f t (f t ++ l) j := by
  by_cases hj : j = t
  · subst hj
    simp
  · rw [Function.update_of_ne hj]

theorem prefix_update_ne {α : Type*} (f : ℕ → List α) {t j : ℕ} (l : List α) (hj : j ≠ t) :
    f j <+: Function.update f t l j := by
  rw [Function.update_of_ne hj]

theorem Shared.setMaster (s : Sys) (ht : a.thread = none) (m : MasterPc) :
    Shared s a { s with master := m } :=
  { Shared.refl s a with master := fun hne => absurd ht hne, cbsul := .inl prefix_rfl }

theorem Shared.master_step (ht : a.thread = none) (hs : Steps n s a s') : Shared s a s' := by
  have h := Shared.setMaster s ht
  cases hs with
  | acceptFail => exact .refl s _
  | accept => exact { h (.notify _ .c) with csul := fun _ => .inl (prefix_update ..) }
  | masterWrite =>
    refine { h .idle with toWorker := fun j => .inl ?_ }
    unfold masterWrite
    split_ifs
    · exact prefix_update ..
    · exact prefix_rfl
  | @masterRead w tag =>
    refine { h (.gotByte w tag true) with toMaster := fun j => ?_ }
    by_cases hj : j = w
    · exact .inr (by rw [hj])
    · exact .inl (prefix_update_ne _ _ hj)
  | masterReadFail => exact h _
  | @masterPop w tag real hm =>
    unfold masterPop
    split
    · next su rest hq =>
      exact { h (.hold su.num { su with num := w }) with
        cbsul := .inr ⟨w, _, real, su, hm, hq, rfl⟩ }
    · exact h _
  | masterPush =>
    unfold masterPush
    split
    · exact h _
    · exact { h (.notify _ .j) with csul := fun _ => .inl (prefix_update ..) }
  | _ => cases ht

section

variable (hstep : step n s a = some s')

include hstep

/-- A step of one thread leaves the places of the others, and only appends to what they read. -/
theorem step_shared : Shared s a s' := by
  obtain ⟨s₁, hs, hf⟩ := step_shift hstep
  refine Shared.of_net ?_ hf.net
  cases hs with
  | master ht hs => exact .master_step ht hs
  | @read i tag =>
    refine { Shared.setWorker s rfl (.gotByte tag true) with toWorker := fun j => ?_ }
    by_cases hj : j = i
    · exact .inr (by rw [hj])
    · exact .inl (prefix_update_ne _ _ hj)
  | quiet ht => exact .setWorker s ht _
  | readFail | popNone | readCuridx | writeFail => exact .setWorker s rfl _
  | @popUnit i tag real _ _ su _ pc hw hq =>
    refine { Shared.setWorker s rfl pc with csul := fun j => ?_ }
    by_cases hj : j = i
    · subst hj
      exact .inr ⟨tag, real, su, rfl, hw, by simpa using hq⟩
    · exact .inl (prefix_update_ne _ _ hj)
  | @push _ c => exact { Shared.setWorker s rfl (.pushed c) with cbsul := .inl (prefix_append _ _) }
  | write =>
    exact { Shared.setWorker s rfl .idle with toMaster := fun _ => .inl (prefix_update ..) }

variable {tag : Tag}

theorem master_gotByte {w : ℕ} {real : Bool}
    (ht : a.thread = none) (hm : s.master = .gotByte w tag real) : s' = masterPop s w tag := by
  cases step_cases hstep <;> simp_all [Act.thread]

theorem master_hold {idx : ℤ} {su : ConnSwapUnit}
    (ht : a.thread = none) (hm : s.master = .hold idx su) : s' = masterPush n s idx su := by
  cases step_cases hstep <;> simp_all [Act.thread]

theorem master_notify {w : ℕ} (ht : a.thread = none)
    (hm : s.master = .notify w tag) : ∃ ok, a = .masterWrite ok ∧ s' = masterWrite s w tag ok := by
  cases step_cases hstep <;> simp_all [Act.thread]

section

variable (ht : a.thread = some i)

include ht

theorem worker_gotByte {real : Bool} (hw : s.worker i = .gotByte tag real) :
    ∃ conn ae, a = .pop i conn ae ∧ s' = workerPop n s i tag conn ae := by
  cases step_cases hstep with
  | pop hw' =>
    cases ht
    rw [hw] at hw'
    cases hw'
    exact ⟨_, _, rfl, rfl⟩
  | _ => simp_all [Act.thread]

theorem worker_dispatch (hw : s.worker i = .dispatch c) :
    ∃ alloc, a = .dispatch i alloc ∧ s' = dispatchConnExist s i c alloc := by
  cases step_cases hstep <;> simp_all [Act.thread]

theorem worker_pushed (hw : s.worker i = .pushed c) : ∃ idx, s' = s.setWorker i (.notify idx) := by
  cases step_cases hstep with
  | readCuridx hw' =>
    cases ht
    exact ⟨_, rfl⟩
  | _ => simp_all [Act.thread]

theorem worker_notify {idx : ℤ}
    (hw : s.worker i = .notify idx) : ∃ ok, a = .write i ok ∧ s' = workerWrite n s i idx ok := by
  cases step_cases hstep <;> simp_all [Act.thread]

end

end

end Vire.Jump
