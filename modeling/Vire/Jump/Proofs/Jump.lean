import Mathlib.Data.Nat.ModEq
import Vire.Jump.Proofs.Handler

/-!
# One step of a jump

The step a client runs on the worker it arrived at, seen from its history: the steps so far are on
`w`, `w + 1`, … modulo the number of workers, and the reply comes with the `n`-th of them.
-/

namespace Vire.Jump

variable {n : ℕ} {pl pl' : Cid → Place} {s s' : Sys} {i w m : ℕ} {c : Cid} {k k' : Client}
  {r : Request} {K : Kind} {h : List Event} {st : Prop}

theorem runs_succ (n w m : ℕ) : runs n w (m + 1) = runs n w m ++ [.run ((w + m) % n)] := by
  simp [runs, List.range_succ]

theorem workerGetNextIdx_eq (hi : i < n) : workerGetNextIdx n i = ((i + 1) % n : ℕ) := by
  unfold workerGetNextIdx
  split_ifs with hge
  · have : i + 1 = n := by omega
    simp [this]
  · rw [Nat.mod_eq_of_lt (by omega)]
    simp

theorem workerAt_next (hi : i < n) :
    workerAt n (workerGetNextIdx n i) = some ((i + 1) % n) := by
  have hlt : (i + 1) % n < n := Nat.mod_lt _ (by omega)
  rw [workerGetNextIdx_eq hi, workerAt, if_pos ⟨by omega, by exact_mod_cast hlt⟩, Int.toNat_natCast]

theorem UnderWay.start (hi : i < n) (hh : Settled n i h) :
    UnderWay n i 0 r (h ++ [.issue i r, .run i]) := by
  refine ⟨h, hh, ?_⟩
  simp [runs, Nat.mod_eq_of_lt hi]

theorem UnderWay.next (hu : UnderWay n w m r h) :
    UnderWay n w (m + 1) r (h ++ [.run ((w + (m + 1)) % n)]) := by
  obtain ⟨h0, hs, rfl⟩ := hu
  exact ⟨h0, hs, by simp [runs_succ n w (m + 1)]⟩

theorem UnderWay.finish (hu : UnderWay n w m r h) (hm : m + 1 = n) (hw : w < n)
    (hK : kind? r = some K) (rep : Reply) :
    Settled n ((w + m) % n) (h ++ [.reply rep]) := by
  obtain ⟨h0, hs, rfl⟩ := hu
  have hblock := Settled.block r rep hs hw (by rw [hK]; rfl)
  rw [show w + n - 1 = w + m by omega] at hblock
  rw [hm]
  simpa [block] using hblock

variable {k'? : Option Client} {h' : List Event}

theorem step_issue (hi : i < n) (hr : Ready n i k r K) (hvel : k.vel = some i)
    (hsteps : k.steps = 0) (hh : Settled n i h) {P : Cache} (hP : K.Caches P)
    (hst : Stepped n i k r P h k'? h') :
    (∃ k', k'? = some k' ∧ k'.jump = true ∧ Phase n (.leaving i) k'? h') ∨
      (∃ k', k'? = some k' ∧ k'.jump = false ∧ Phase n (.rest i) k'? h') := by
  have hev : stepEvents i k r = [.issue i r, .run i] := by simp [stepEvents, hsteps]
  unfold Stepped at hst
  rw [hev] at hst
  split_ifs at hst with hn
  · obtain ⟨rfl, rfl⟩ := hst
    refine .inl ⟨_, rfl, rfl, hi, _, rfl, hvel, hsteps, ?_⟩
    refine ⟨hr.curidx, ?_, rfl, hn, hr.sd, hr.notClosing, r, K, i, hr.cmd, hr.kind, hP, hi,
      ?_, ?_⟩
    · simp [jumpOn, hr.curidx]
    · simp [jumpOn, hsteps, Nat.mod_eq_of_lt hi]
    · simpa [jumpOn, hsteps] using UnderWay.start (r := r) hi hh
  · obtain ⟨k', rfl, hrep, rfl⟩ := hst
    refine .inr ⟨k', rfl, hrep.jump, hi, k', rfl, ?_⟩
    have hset := (UnderWay.start (r := r) hi hh).finish (by omega) hi hr.kind (P.answer r)
    rw [Nat.add_zero, Nat.mod_eq_of_lt hi] at hset
    exact ⟨(congrArg Core.vel hrep.core).trans hvel, hrep.curidx.trans hr.curidx, hrep.steps,
      hrep.jump, hrep.cache, hr.sd.trans_eq (congrArg Core.sd hrep.core).symm, hset⟩

theorem Detached.ready (hd : Detached n k h) (htar : k.taridx = i) :
    i < n ∧ ∃ r K w,
      Ready n i { k with vel := some i, curidx := i, steps := k.steps + 1 } r K ∧ w < n ∧
      (w + (k.steps + 1)) % n = i ∧ UnderWay n w k.steps r h := by
  obtain ⟨i0, hi0, hj⟩ := hd.jumping
  obtain ⟨r, K, w, hcmd, hkind, hcache, hw, hmod, hu⟩ := hj.cmd
  have hnext : i = (i0 + 1) % n := by
    have := hj.taridx
    rw [htar, workerGetNextIdx_eq hi0] at this
    exact_mod_cast this
  refine ⟨hnext ▸ Nat.mod_lt _ (by omega), r, K, w,
    ⟨hcmd, hkind, rfl, hj.sd, hj.notClosing, hj.steps, fun _ => hcache⟩, hw, ?_, hu⟩
  rw [hnext, ← hmod, ← Nat.add_assoc, Nat.mod_add_mod]

theorem step_arrive (hi : i < n) (hr : Ready n i k r K) (hvel : k.vel = some i)
    (hsteps : k.steps = m + 1) (hw : w < n) (hmod : (w + (m + 1)) % n = i)
    (hp : k.pendingWrite = false) (hca : k.closeAsap = false) (hub : k.unblocked = false)
    (hu : UnderWay n w m r h) {P : Cache} (hP : K.Caches P) (hst : Stepped n i k r P h k'? h') :
    (∃ k', k'? = some k' ∧ k'.jump = true ∧ Phase n (.out i) k'? h') ∨
      (∃ k', k'? = some k' ∧ k'.jump = false ∧ Phase n (.rest i) k'? h') := by
  have hev : stepEvents i k r = [.run ((w + (m + 1)) % n)] := by simp [stepEvents, hsteps, hmod]
  unfold Stepped at hst
  rw [hev] at hst
  split_ifs at hst with hn
  · obtain ⟨rfl, rfl⟩ := hst
    refine .inl ⟨_, rfl, rfl, hi, _, rfl, hvel, ?_, hp, hca, hub, ?_⟩
    · simp [jumpOn, hsteps]
    · refine ⟨hr.curidx, ?_, rfl, hn, hr.sd, hr.notClosing, r, K, w, hr.cmd, hr.kind, hP, hw,
        ?_, ?_⟩
      · simp [jumpOn, hr.curidx]
      · simpa [jumpOn, hsteps] using hmod
      · simpa [jumpOn, hsteps] using hu.next
  · obtain ⟨k', rfl, hrep, rfl⟩ := hst
    refine .inr ⟨k', rfl, hrep.jump, hi, k', rfl, ?_⟩
    have hlt := hr.steps
    have hset := hu.next.finish (by omega) hw hr.kind (P.answer r)
    rw [hmod] at hset ⊢
    exact ⟨(congrArg Core.vel hrep.core).trans hvel, hrep.curidx.trans hr.curidx, hrep.steps,
      hrep.jump, hrep.cache, hr.sd.trans_eq (congrArg Core.sd hrep.core).symm, hset⟩

theorem step_other (hi : i < n) (hR : Rest n i k h) (ha : Answered k h k'? h') :
    ∃ k', k'? = some k' ∧ k'.jump = false ∧ Phase n (.rest i) k'? h' := by
  obtain ⟨k', rfl, hst, hh⟩ := ha
  refine ⟨k', rfl, hst.jump.trans hR.jump, hi, k', rfl, ?_⟩
  refine ⟨(congrArg Core.vel hst.core).trans hR.vel, hst.curidx.trans hR.curidx,
    hst.steps.trans hR.steps, hst.jump.trans hR.jump, hst.cache.trans hR.cache,
    hR.sd.trans_eq (congrArg Core.sd hst.core).symm, ?_⟩
  rcases hh with rfl | ⟨rep, rfl⟩
  · exact hR.hist
  · exact hR.hist.reply rep

end Vire.Jump
