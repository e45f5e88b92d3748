import Mathlib.Algebra.BigOperators.Group.Finset.Piecewise
import Vire.Jump.Proofs.Frame

/-!
# Bytes and units match

Every step that loses no notification keeps `Matched`.
-/

namespace Vire.Jump

open Function List

variable {n : ℕ} {s s' : Sys} {i w : ℕ} {c : Cid} {a : Act}

theorem sum_update {f g : ℕ → ℕ} (hi : i < n) (hne : ∀ j, j ≠ i → g j = f j) :
    ∑ j ∈ Finset.range n, g j + f i = ∑ j ∈ Finset.range n, f j + g i := by
  have hmem := Finset.mem_range.mpr hi
  have hf := Finset.add_sum_erase _ f hmem
  have hg := Finset.add_sum_erase _ g hmem
  have hfg : ∑ j ∈ (Finset.range n).erase i, g j = ∑ j ∈ (Finset.range n).erase i, f j :=
    Finset.sum_congr rfl fun j hj => hne j (Finset.ne_of_mem_erase hj)
  omega

theorem tokens_setWorker (hi : i < n) (v : WorkerPc) :
    tokens n (s.setWorker i v) + (s.worker i).owes = tokens n s + v.owes := by
  have hsum := sum_update (f := fun w => (s.toMaster w).length + (s.worker w).owes)
    (g := fun w => (s.toMaster w).length + (update s.worker i v w).owes) hi
    fun j hj => by rw [update_of_ne hj]
  simp only [update_self] at hsum
  simp only [tokens, Sys.setWorker_worker, Sys.setWorker_master, Sys.setWorker_toMaster]
  omega

variable {v : WorkerPc}

theorem tokens_of_owes (hi : i < n) (h : v.owes = (s.worker i).owes) :
    tokens n (s.setWorker i v) = tokens n s := by
  have := tokens_setWorker (s := s) hi v
  omega

theorem tokens_toMaster (hw : w < n) (l : List Tag) (m : MasterPc) :
    tokens n { s with toMaster := update s.toMaster w l, master := m } +
      ((s.toMaster w).length + s.master.has) = tokens n s + (l.length + m.has) := by
  have hsum := sum_update (f := fun w => (s.toMaster w).length + (s.worker w).owes)
    (g := fun j => (update s.toMaster w l j).length + (s.worker j).owes) hw
    fun j hj => by rw [update_of_ne hj]
  simp only [update_self] at hsum
  simp only [tokens]
  omega

theorem WorkerPc.quiet_iff : v.quiet = true →
    v.tags = [] ∧ v.owes = 0 ∧ ∀ idx, v ≠ .notify idx := by
  cases v <;> simp [WorkerPc.quiet, WorkerPc.tags, WorkerPc.owes]

theorem Matched.of_net (h : Matched n s) (hnet : s'.net = s.net) : Matched n s' := by
  cases s'
  obtain ⟨rfl, rfl, rfl, rfl, rfl, rfl, rfl⟩ := Net.mk.inj hnet
  exact { h with }

/-- Worker `i` goes to `v`; it may change its own queue and stream, the queue of the master and the
streams to the master. -/
theorem Matched.moved (h : Matched n s) (hi : i < n) (hworker : s'.worker = update s.worker i v)
    (hmaster : s'.master = s.master)
    (hself : (s'.csul i).map (·.data.tag) = v.tags ++ s'.toWorker i ++ s.master.tags i)
    (hother : ∀ j, j ≠ i → s'.csul j = s.csul j ∧ s'.toWorker j = s.toWorker j)
    (hlen : s'.cbsul.length ≤ tokens n s') (hbytes : ∀ w, ∀ tag ∈ s'.toMaster w, tag = .b)
    (hnotify : ∀ idx, v = .notify idx → ∃ w < n, workerAt n idx = some w)
    (hrange : ∀ w, n ≤ w → s'.toMaster w = []) : Matched n s' := by
  refine ⟨fun j => ?_, hlen, hbytes, hmaster ▸ h.byte, fun j idx hj => ?_,
    fun w hw => ⟨hrange w hw, ?_⟩⟩
  · rw [hworker, hmaster]
    by_cases hj : j = i
    · subst hj
      rw [update_self]
      exact hself
    · rw [update_of_ne hj, (hother j hj).1, (hother j hj).2]
      exact h.worker j
  · rw [hworker] at hj
    by_cases hji : j = i
    · subst hji
      exact hnotify idx (update_self j v s.worker ▸ hj)
    · exact h.notify j idx (update_of_ne hji v s.worker ▸ hj)
  · rw [hworker, update_of_ne (by omega)]
    exact (h.range w hw).2

theorem Matched.setWorker (h : Matched n s) (hi : i < n) (htags : v.tags = (s.worker i).tags)
    (howes : v.owes = (s.worker i).owes)
    (hnotify : ∀ idx, v = .notify idx → ∃ w < n, workerAt n idx = some w) :
    Matched n (s.setWorker i v) :=
  h.moved hi rfl rfl (htags ▸ h.worker i) (fun _ _ => ⟨rfl, rfl⟩)
    (h.master.trans_eq (tokens_of_owes hi howes).symm) h.bytes hnotify fun w hw => (h.range w hw).1

theorem Matched.quiet (h : Matched n s) (hi : i < n) (hw : (s.worker i).quiet = true)
    (hpc : v.quiet = true) : Matched n (s.setWorker i v) := by
  obtain ⟨h1, h2, -⟩ := WorkerPc.quiet_iff hw
  obtain ⟨h3, h4, h5⟩ := WorkerPc.quiet_iff hpc
  exact h.setWorker hi (h3.trans h1.symm) (h4.trans h2.symm) fun idx e => absurd e (h5 idx)

theorem Ranged.curidx_lt (h : Ranged n s) {k : Client} (hk : s.client c = some k) :
    ∃ w < n, workerAt n k.curidx = some w := by
  obtain ⟨w, hw, he⟩ := h.curidx c k hk
  exact ⟨w, hw, by rw [he, workerAt, if_pos ⟨by omega, by exact_mod_cast hw⟩, Int.toNat_natCast]⟩

theorem Matched.accept (h : Matched n s) (hm : s.master = .idle) (sd : ℤ) :
    Matched n (dispatchConnNew n s sd) := by
  unfold dispatchConnNew
  generalize ((s.lastWorkerThread + 1) % n).toNat = t
  have hle := h.master
  rw [tokens, hm] at hle
  refine { h with worker := fun j => ?_, master := hle, byte := by simp }
  have hj := h.worker j
  rw [hm, show MasterPc.idle.tags j = [] from rfl, append_nil] at hj
  by_cases hjt : j = t
  · subst hjt
    simp [hj, MasterPc.tags, show Data.tag .listen = .c from rfl]
  · simp [hj, MasterPc.tags, hjt, Ne.symm hjt]

variable {tag : Tag}

section

variable (h : Matched n s)

include h

theorem Matched.masterWrite (hm : s.master = .notify w tag) :
    Matched n (masterWrite s w tag true) := by
  have hle := h.master
  rw [tokens, hm] at hle
  refine { h with worker := fun j => ?_, master := hle, byte := by simp [Jump.masterWrite] }
  have hj := h.worker j
  rw [hm] at hj
  by_cases hjw : j = w
  · subst hjw
    simpa [Jump.masterWrite, MasterPc.tags] using hj
  · simpa [Jump.masterWrite, MasterPc.tags, hjw, Ne.symm hjw] using hj

theorem Matched.masterRead (hm : s.master = .idle) {rest : List Tag}
    (hr : s.toMaster w = tag :: rest) :
    Matched n { s with toMaster := update s.toMaster w rest, master := .gotByte w tag true } := by
  have hw : w < n := by
    by_contra hge
    rw [(h.range w (Nat.le_of_not_lt hge)).1] at hr
    cases hr
  refine { h with
    worker := fun j => ?_, master := ?_, bytes := fun j t ht => ?_, byte := ?_
    range := fun j hj => ?_ }
  · have hj := h.worker j
    rw [hm] at hj
    exact hj
  · have hle := h.master
    have htok := tokens_toMaster (s := s) hw rest (.gotByte w tag true)
    rw [hr, length_cons, hm] at htok
    simp only [MasterPc.has] at htok
    change s.cbsul.length ≤ _
    omega
  · by_cases hjw : j = w
    · subst hjw
      simp only [update_self] at ht
      exact h.bytes j t (hr ▸ mem_cons_of_mem _ ht)
    · simp only [update_of_ne hjw] at ht
      exact h.bytes j t ht
  · rintro _ _ _ ⟨⟩
    exact h.bytes w tag (hr ▸ mem_cons_self)
  · simpa [show j ≠ w by omega] using h.range j hj

theorem Matched.masterPop {real : Bool}
    (hm : s.master = .gotByte w tag real) : Matched n (masterPop s w tag) := by
  cases h.byte w tag real hm
  have hle := h.master
  have hwk : ∀ j, (s.csul j).map (·.data.tag) = (s.worker j).tags ++ s.toWorker j ++ [] := by
    intro j
    have hj := h.worker j
    rw [hm] at hj
    exact hj
  unfold Jump.masterPop
  cases hq : s.cbsul with
  | nil => exact { h with worker := hwk, master := by simp, byte := by simp }
  | cons su rest =>
    refine { h with worker := hwk, master := ?_, byte := by simp }
    rw [tokens, hm, hq, length_cons] at hle
    have : (MasterPc.gotByte w .b real).has ≤ 1 := by cases real <;> simp [MasterPc.has]
    simp only [tokens, MasterPc.has]
    omega

theorem Matched.masterPush {idx : ℤ} {su : ConnSwapUnit}
    (hm : s.master = .hold idx su) (htag : su.data.tag = .j) :
    Matched n (masterPush n s idx su) := by
  have hle := h.master
  have hwk := h.worker
  rw [tokens, hm] at hle
  rw [hm] at hwk
  unfold Jump.masterPush
  split
  · exact { h with worker := hwk, master := hle, byte := by simp }
  · next t _ =>
    refine { h with worker := fun j => ?_, master := hle, byte := by simp }
    by_cases hjt : j = t
    · subst hjt
      simp [hwk, MasterPc.tags, htag]
    · simpa [MasterPc.tags, hjt, Ne.symm hjt] using hwk j

theorem Matched.master_step (hR : Ranged n s) (hnot : Notified s a)
    (ht : a.thread = none) (hs : Steps n s a s') : Matched n s' := by
  cases hs with
  | acceptFail => exact h
  | accept hm => exact h.accept hm _
  | masterWrite hm =>
    cases hnot
    exact h.masterWrite hm
  | masterRead hm hr => exact h.masterRead hm hr
  | masterReadFail hm =>
    have hle := h.master
    have hwk := h.worker
    rw [tokens, hm] at hle
    rw [hm] at hwk
    refine { h with worker := hwk, master := hle, byte := ?_ }
    rintro _ _ _ ⟨⟩
    rfl
  | masterPop hm => exact h.masterPop hm
  | masterPush hm => exact h.masterPush hm (hR.hold _ _ hm)
  | _ => cases ht

theorem Matched.head_tag (hw : s.worker i = .gotByte tag true) :
    ∃ su rest, s.csul i = su :: rest ∧ tag = su.data.tag := by
  have hi := h.worker i
  rw [hw] at hi
  cases hq : s.csul i with
  | nil => rw [hq] at hi; simp [WorkerPc.tags] at hi
  | cons su rest =>
    rw [hq] at hi
    simp only [WorkerPc.tags, map_cons, cons_append, nil_append,
      cons.injEq] at hi
    exact ⟨su, rest, rfl, hi.1.symm⟩

theorem Matched.write (hi : i < n) {idx : ℤ} (hw : s.worker i = .notify idx)
    (hwn : w < n) : Matched n { s.setWorker i .idle with
      toMaster := update s.toMaster w (s.toMaster w ++ [.b]) } := by
  have hwk := h.worker i
  have htok := tokens_setWorker (s := s) hi .idle
  rw [hw] at hwk htok
  refine h.moved hi rfl rfl hwk (fun _ _ => ⟨rfl, rfl⟩) ?_ (fun j tag ht => ?_) (by simp)
    fun j hj => ?_
  · have hlen := tokens_toMaster (s := s.setWorker i .idle) hwn (s.toMaster w ++ [.b]) s.master
    -- the byte that the worker owed is in the stream
    refine h.master.trans (Nat.le_of_add_le_add_right (hlen.trans ?_).ge)
    simp only [Sys.setWorker_toMaster, Sys.setWorker_master, length_append, length_singleton,
      WorkerPc.owes] at htok ⊢
    omega
  · by_cases hjw : j = w
    · subst hjw
      simp only [update_self, mem_append, mem_singleton] at ht
      exact ht.elim (h.bytes j tag) id
    · simp only [update_of_ne hjw] at ht
      exact h.bytes j tag ht
  · simpa [show j ≠ w by omega] using (h.range j hj).1

/-- Every step that loses no notification keeps the match. -/
theorem step_matched (hR : Ranged n s) (hnot : Notified s a)
    (hstep : step n s a = some s') : Matched n s' := by
  have hi : ∀ {i}, a.thread = some i → i < n := hR.thread_lt hstep
  obtain ⟨s₁, hs, hf⟩ := step_shift hstep
  refine Matched.of_net ?_ hf.net
  have htm : ∀ w, n ≤ w → s.toMaster w = [] := fun w hw => (h.range w hw).1
  cases hs with
  | master ht hs => exact h.master_step hR hnot ht hs
  | @read i tag rest hw hr =>
    have hwk := h.worker i
    rw [hw, hr] at hwk
    exact h.moved (hi rfl) rfl rfl (by simpa [WorkerPc.tags] using hwk)
      (fun j hj => ⟨rfl, update_of_ne hj ..⟩)
      (h.master.trans_eq (tokens_of_owes (hi rfl) (by rw [hw]; rfl)).symm) h.bytes (by simp) htm
  | readFail hw => exact h.setWorker (hi rfl) (by rw [hw]; rfl) (by rw [hw]; rfl) (by simp)
  | quiet ht hw hpc => exact h.quiet (hi ht) hw hpc
  | @popNone i tag real _ _ hw hq =>
    -- a byte that was sent has its unit
    cases real with
    | false => exact h.setWorker (hi rfl) (by rw [hw]; rfl) (by rw [hw]; rfl) (by simp)
    | true =>
      obtain ⟨⟨num, data⟩, rest, hq', rfl⟩ := h.head_tag hw
      rw [hq'] at hq
      cases data <;> simp [Data.tag] at hq
  | @popUnit i tag real _ _ su rest pc hw hq hpc =>
    obtain ⟨htags, howes, hnotify⟩ := WorkerPc.quiet_iff hpc
    have hwk := h.worker i
    cases real with
    | false =>
      rw [hnot tag hw] at hq
      cases hq
    | true =>
      rw [hw, hq] at hwk
      simp only [WorkerPc.tags, map_cons, cons_append, nil_append, cons.injEq] at hwk
      exact h.moved (hi rfl) rfl rfl (by simpa [htags] using hwk.2)
        (fun j hj => ⟨update_of_ne hj .., rfl⟩)
        (h.master.trans_eq (tokens_of_owes (hi rfl) (by rw [hw, howes]; rfl)).symm) h.bytes
        (fun idx e => absurd e (hnotify idx)) htm
  | @push i c _ _ hw =>
    have hwk := h.worker i
    have htok := tokens_setWorker (s := s) (hi rfl) (.pushed c)
    rw [hw] at hwk htok
    refine h.moved (hi rfl) rfl rfl hwk (fun _ _ => ⟨rfl, rfl⟩) ?_ h.bytes (by simp) htm
    rw [length_append]
    exact (Nat.add_le_add_right h.master 1).trans htok.ge
  | @readCuridx i c junk hw =>
    obtain ⟨k, hk⟩ := Option.ne_none_iff_exists'.mp (hnot c hw)
    refine h.setWorker (hi rfl) (by rw [hw]; rfl) (by rw [hw]; rfl) fun idx e => ?_
    cases e
    rw [hk]
    exact hR.curidx_lt hk
  | write hw hat => exact h.write (hi rfl) hw (workerAt_lt hat)
  | @writeFail i idx ok hw hat =>
    obtain ⟨w, -, hat'⟩ := h.notify i idx hw
    rw [hat hnot] at hat'
    cases hat'

end

theorem init_matched (n ncmd : ℕ) : Matched n (init ncmd) := by
  constructor <;> simp [init, WorkerPc.tags, MasterPc.tags, WorkerPc.owes]

end Vire.Jump
