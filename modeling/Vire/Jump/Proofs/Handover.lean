import Vire.Jump.Proofs.Input

/-!
# Handing clients over

The creation of a client, the push of `dispatch_conn_exist`, the two steps of the master that
forward a unit, and the arrival at the next worker.
-/

namespace Vire.Jump

open Function List

variable {n : ℕ} {pl pl' : Cid → Place} {s s' : Sys} {i w m : ℕ} {c : Cid} {k k' : Client}
  {su : ConnSwapUnit} {q rest : List ConnSwapUnit} {st : Prop}

@[simp] theorem unitClients_nil : unitClients [] = [] := rfl

@[simp] theorem unitClients_cons_listen (num : ℤ) (q : List ConnSwapUnit) :
    unitClients (⟨num, .listen⟩ :: q) = unitClients q := rfl

@[simp] theorem unitClients_cons_client (num : ℤ) (c : Cid) (q : List ConnSwapUnit) :
    unitClients (⟨num, .client c⟩ :: q) = c :: unitClients q := rfl

@[simp] theorem unitClients_append (q q' : List ConnSwapUnit) :
    unitClients (q ++ q') = unitClients q ++ unitClients q' := filterMap_append ..

/-- The places of a client that is in no event loop and that no worker is about to push. -/
def Place.away : Place → Bool
  | .back | .held | .queued _ | .visiting _ | .lost => true
  | _ => false

theorem Placed.move_away (h : Placed n pl s) {p : Place} (hc : (pl c).away = true)
    (hp : p.away = true) (hloop : s'.loop = s.loop) (hw : s'.worker = s.worker)
    (hcid : s'.nextCid = s.nextCid) (hhist : s'.hist = s.hist)
    (hback : Moves c (unitClients s.cbsul) (unitClients s'.cbsul) (p = .back))
    (back_num : ∀ su ∈ s'.cbsul, ∃ c k, su.data = .client c ∧ s'.client c = some k ∧
      su.num = k.taridx)
    (hqueued : ∀ i, Moves c (unitClients (s.csul i)) (unitClients (s'.csul i)) (p = .queued i))
    (queued_num : ∀ i, ∀ su ∈ s'.csul i, su.data = .listen → 0 < su.num ∧ i < n)
    (held_iff : ∀ x, update pl c p x = .held ↔
      ∃ idx su, s'.master = .hold idx su ∧ su.data = .client x)
    (held_num : ∀ idx su, s'.master = .hold idx su →
      ∃ c k, su.data = .client c ∧ s'.client c = some k ∧ idx = k.taridx) :
    Placed n (update pl c p) s' := by
  have key : ∀ x q, Place.away q = false → (update pl c p x = q ↔ pl x = q) := by
    intro x q hq
    refine update_eq_iff ?_ ?_ x <;> rintro rfl
    · exact Bool.noConfusion (hp.symm.trans hq)
    · exact Bool.noConfusion (hc.symm.trans hq)
  refine ⟨hloop ▸ h.clients_nodup, fun j x => ?_, hback.nodup,
    hback.mem_iff (Q := (· = .back)) h.back_iff,
    back_num, fun j => (hqueued j).nodup,
      fun j => (hqueued j).mem_iff (Q := (· = .queued j)) (h.queued_iff j),
    queued_num, held_iff, held_num, fun j x => ?_, fun j x b hx => ?_, fun x hx => ?_⟩
  · rw [hloop, key x _ rfl, key x _ rfl, key x _ rfl]
    exact h.clients_iff j x
  · rw [hw, key x _ rfl, key x _ rfl]
    exact h.dispatch_iff j x
  · rw [hw] at hx
    rw [key x _ rfl, key x _ rfl]
    exact h.input j x b hx
  · rw [hcid] at hx
    rw [key x _ rfl, hhist]
    exact h.fresh x hx

theorem Placed.not_held (h : Placed n pl s) (hm : ∀ idx su, s.master ≠ .hold idx su) (x : Cid) :
    pl x ≠ .held := by
  intro hx
  obtain ⟨idx, su, h1, -⟩ := (h.held_iff x).mp hx
  exact hm idx su h1

theorem Inv.setMaster (h : Inv n pl s) (hm : ∀ idx su, s.master ≠ .hold idx su) {v : MasterPc}
    (hpc : ∀ idx su, v ≠ .hold idx su) : Inv n pl { s with master := v } := by
  refine ⟨h.phase, { h.lists with },
    { h.placed with
      held_iff := fun x => ⟨fun h1 => absurd h1 (h.placed.not_held hm x), ?_⟩
      held_num := fun idx su hsu => absurd hsu (hpc idx su) }⟩
  rintro ⟨idx, su, h1, -⟩
  exact absurd h1 (hpc idx su)

theorem masterPop_inv (h : Inv n pl s) (hB : Between st pl) {tag : Tag} {real : Bool}
    (hm : s.master = .gotByte w tag real) :
    ∃ pl', Inv n pl' (masterPop s w tag) ∧ Between st pl' := by
  have hP := h.placed
  have hnot : ∀ idx su, s.master ≠ .hold idx su := fun idx su e => by
    rw [hm] at e
    exact MasterPc.noConfusion e
  unfold masterPop
  split
  · next su rest hq =>
    obtain ⟨c, k, hd, hk, hnum⟩ := hP.back_num su (hq ▸ mem_cons_self)
    obtain ⟨num, data⟩ := su
    cases hd
    have hc : pl c = .back := (hP.back_iff c).mp (by rw [hq]; simp)
    have hback := hP.back_nodup
    have hphase := h.phase c
    rw [hc] at hphase
    rw [hq] at hback
    refine ⟨_, h.move (p := .held) (fun _ _ => rfl) rfl hphase { h.lists with }
      (hP.move_away (by rw [hc]; rfl) rfl rfl rfl rfl rfl (by rw [hq]; exact .tail hback (by simp))
        (fun su hsu => hP.back_num su (hq ▸ mem_cons_of_mem _ hsu))
        (fun j => .keep (hP.queued_nodup j) (by simp [hP.queued_iff, hc]))
          hP.queued_num (fun x => ?_)
        fun idx su hsu => ?_),
      hB.calm_update (p := .held) rfl (fun x hx => .inl (update_of_ne hx ..))
        (update_self ..)⟩
    · by_cases hx : x = c
      · subst hx
        rw [update_self]
        exact ⟨fun _ => ⟨num, _, rfl, rfl⟩, fun _ => rfl⟩
      · rw [update_of_ne hx]
        refine ⟨fun h1 => absurd h1 (hP.not_held hnot x), ?_⟩
        rintro ⟨idx, su, h1, h2⟩
        cases h1
        cases h2
        exact absurd rfl hx
    · cases hsu
      exact ⟨c, k, rfl, hk, hnum⟩
  · exact ⟨pl, h.setMaster hnot (by simp), hB⟩

theorem Detached.target {e : List Event} (hd : Detached n k e) :
    ∃ t < n, workerAt n k.taridx = some t ∧ k.taridx = t := by
  obtain ⟨i, hi, hj⟩ := hd.jumping
  have hlt : (i + 1) % n < n := Nat.mod_lt _ (by omega)
  exact ⟨_, hlt, hj.taridx ▸ workerAt_next hi, hj.taridx.trans (workerGetNextIdx_eq hi)⟩

theorem masterPush_inv (h : Inv n pl s) (hB : Between st pl) {idx : ℤ}
    (hm : s.master = .hold idx su) :
    ∃ pl', Inv n pl' (masterPush n s idx su) ∧ Between st pl' := by
  have hP := h.placed
  obtain ⟨c, k, hd, hk, rfl⟩ := hP.held_num idx su hm
  obtain ⟨num, data⟩ := su
  cases hd
  have hc : pl c = .held := (hP.held_iff c).mpr ⟨_, _, hm, rfl⟩
  have hphase := h.phase c
  rw [hc, hk] at hphase
  obtain ⟨k', hkk, hdet⟩ := hphase
  cases hkk
  obtain ⟨t, ht, hat, htar⟩ := hdet.target
  have hnew : c ∉ unitClients (s.csul t) := fun hmem => by
    rw [(hP.queued_iff t c).mp hmem] at hc
    exact Place.noConfusion hc
  simp only [masterPush, hat]
  refine ⟨_, h.move (p := .queued t) (fun _ _ => rfl) rfl ⟨ht, k, hk, hdet, htar⟩ { h.lists with }
    (hP.move_away (by rw [hc]; rfl) rfl rfl rfl rfl rfl
      (.keep hP.back_nodup (by simp [hP.back_iff, hc])) hP.back_num
      (fun j => ?_) (fun j su hsu hl => ?_) (fun x => ?_) fun idx su hsu => ?_),
    hB.calm_update (p := .queued t) rfl (fun x hx => .inl (update_of_ne hx ..))
      (update_self ..)⟩
  · by_cases hj : j = t
    · subst hj
      simp only [update_self, unitClients_append]
      exact .append (hP.queued_nodup j) hnew trivial
    · simp only [update_of_ne hj]
      exact .keep (hP.queued_nodup j) (by simp [hP.queued_iff, hc, Ne.symm hj])
  · by_cases hj : j = t
    · subst hj
      simp only [update_self, mem_append, mem_singleton] at hsu
      rcases hsu with hsu | rfl
      · exact hP.queued_num j su hsu hl
      · exact Data.noConfusion hl
    · simp only [update_of_ne hj] at hsu
      exact hP.queued_num j su hsu hl
  · by_cases hx : x = c
    · subst hx
      simp
    · rw [update_of_ne hx, hP.held_iff, hm]
      constructor
      · rintro ⟨_, _, ⟨-, rfl⟩, h1⟩
        exact absurd (Data.client.inj h1).symm hx
      · rintro ⟨_, _, h1, -⟩
        exact MasterPc.noConfusion h1
  · exact MasterPc.noConfusion hsu

end Vire.Jump
