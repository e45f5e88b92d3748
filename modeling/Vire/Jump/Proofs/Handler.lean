import Vire.Jump.Proofs.Command

/-!
# Handlers

A handler takes a client of its worker, serves it, and puts it down again: at rest, on its way to
the master, or freed.
-/

namespace Vire.Jump

open Function

variable {n : ℕ} {pl pl' : Cid → Place} {s s' : Sys} {i : ℕ} {c : Cid} {k : Client}
  {st : Prop} {v : WorkerPc}

theorem Placed.setWorker (h : Placed n pl s) (hd : ∀ x, v = .dispatch x ↔ s.worker i = .dispatch x)
    (hin : ∀ x b, v = .input x b → pl x = .rest i ∨ pl x = .busy i) :
    Placed n pl (s.setWorker i v) :=
  { h with
    dispatch_iff := by
      intro j x
      by_cases hj : j = i
      · subst hj
        rw [s.setWorker_self, hd, h.dispatch_iff]
      · rw [s.setWorker_ne i v hj, h.dispatch_iff]
    input := by
      intro j x b hx
      by_cases hj : j = i
      · subst hj
        rw [s.setWorker_self] at hx
        exact hin x b hx
      · rw [s.setWorker_ne i v hj] at hx
        exact h.input j x b hx }

theorem Inv.setWorker (h : Inv n pl s) (hd : ∀ x, v = .dispatch x ↔ s.worker i = .dispatch x)
    (hin : ∀ x b, v = .input x b → pl x = .rest i ∨ pl x = .busy i) :
    Inv n pl (s.setWorker i v) :=
  ⟨h.phase, { h.lists with }, h.placed.setWorker hd hin⟩

theorem Inv.take (h : Inv n pl s) (hB : Between st pl) (hc : pl c = .rest i)
    (hdisp : ∀ x, s.worker i ≠ .dispatch x) (hin : ∀ x b, s.worker i = .input x b → x = c) :
    Handling n (update pl c (.busy i)) s i c where
  inv := by
    obtain ⟨hi, k, hk, hrest⟩ := h.rest hc
    refine h.move (fun _ _ => rfl) rfl ⟨hi, k, hk, hrest.vel⟩ h.lists
      (h.placed.of_home rfl rfl (fun _ _ => rfl) (fun _ _ => rfl) (by rw [hc]; rfl) rfl
        (by simp [hc]) (fun j b hj => ?_) fun j => .keep (h.placed.clients_nodup j) ?_)
    · rcases h.placed.input j c b hj with hp | hp <;> rw [hc] at hp
      · exact .inr (congrArg Place.busy (Place.rest.inj hp))
      · exact Place.noConfusion hp
    · rw [h.placed.clients_iff, hc]
      simp
  place := .inl (update_self ..)
  only x hx := by
    by_contra hne
    rw [update_of_ne hne] at hx
    exact hB.busy x i hx
  input := hin
  dispatch := hdisp

theorem Handling.putDown (h : Handling n pl s i c) {p : Place}
    (hp : pl c = .busy i ∧ (p = .rest i ∨ p = .leaving i) ∨ pl c = .visiting i ∧ p = .out i)
    (hphase : Phase n p (s.client c) (s.hist c))
    (hpc : ∀ x, v = .dispatch x ↔ x = c ∧ (p = .leaving i ∨ p = .out i))
    (hin : ∀ x b, v = .input x b → x = c ∧ p = .rest i) :
    Inv n (update pl c p) (s.setWorker i v) := by
  have hne : ∀ x, x ≠ c → update pl c p x = pl x :=
    fun x hx => update_of_ne hx ..
  have hI := h.inv.placed
  -- no queue and no other thread has the client, before or after
  have key : ∀ x q, (∀ j, q ≠ .rest j ∧ q ≠ .busy j ∧ q ≠ .visiting j ∧ q ≠ .leaving j ∧
      q ≠ .out j) → (update pl c p x = q ↔ pl x = q) := by
    intro x q hq
    by_cases hx : x = c
    · subst hx
      rcases hp with ⟨h1, rfl | rfl⟩ | ⟨h1, rfl⟩ <;> rw [h1] <;>
        exact ⟨fun e => absurd e.symm (by grind), fun e => absurd e.symm (by grind)⟩
    · rw [hne x hx]
  refine h.inv.move (fun _ _ => rfl) rfl hphase { h.inv.lists with }
    { hI with
      clients_iff := fun j x => ?_
      back_iff := fun x => ?_
      queued_iff := fun j x => ?_
      held_iff := fun x => ?_
      dispatch_iff := fun j x => ?_
      input := fun j x b hx => ?_
      fresh := fun x hx => ?_ }
  · rw [Sys.setWorker_loop, hI.clients_iff]
    by_cases hx : x = c
    · subst hx
      rcases hp with ⟨h1, rfl | rfl⟩ | ⟨h1, rfl⟩ <;> rw [h1] <;> simp
    · rw [hne x hx]
  · rw [key x .back (by simp)]
    exact hI.back_iff x
  · rw [key x (.queued j) (by simp)]
    exact hI.queued_iff j x
  · rw [key x .held (by simp)]
    exact hI.held_iff x
  · by_cases hj : j = i
    · subst hj
      rw [Sys.setWorker_self, hpc]
      by_cases hx : x = c
      · subst hx
        simp
      · have := (not_congr (hI.dispatch_iff j x)).mp (h.dispatch x)
        simp [hx, this]
    · rw [Sys.setWorker_ne _ _ _ hj, hI.dispatch_iff]
      by_cases hx : x = c
      · subst hx
        rcases hp with ⟨h1, rfl | rfl⟩ | ⟨h1, rfl⟩ <;> rw [h1] <;> simp [Ne.symm hj]
      · rw [hne x hx]
  · by_cases hj : j = i
    · subst hj
      rw [Sys.setWorker_self] at hx
      obtain ⟨rfl, rfl⟩ := hin x b hx
      exact .inl (update_self ..)
    · rw [Sys.setWorker_ne _ _ _ hj] at hx
      have hxc : x ≠ c := by
        rintro rfl
        rcases hI.input j x b hx with h1 | h1 <;> rcases h.place with h2 | h2 <;> rw [h2] at h1
        · exact Place.noConfusion h1
        · exact Place.noConfusion h1
        · exact hj (Place.busy.inj h1).symm
        · exact Place.noConfusion h1
      rw [hne x hxc]
      exact hI.input j x b hx
  · have hxc : x ≠ c := by
      rintro rfl
      exact h.place.ne_gone (hI.fresh x hx).1
    rw [hne x hxc]
    exact hI.fresh x hx

end Vire.Jump
