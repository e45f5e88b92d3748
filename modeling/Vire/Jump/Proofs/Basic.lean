import Mathlib.Data.List.Nodup
import Mathlib.Tactic.Common
import Vire.Jump.Place

/-!
# The primitive updates of the state

Each update of `Sys` touches one client, one event loop, one history or one thread.  `net` collects
what the threads share.
-/

namespace Vire.Jump

open Function List

structure Net where
  cbsul : List ConnSwapUnit
  csul : ℕ → List ConnSwapUnit
  toWorker : ℕ → List Tag
  toMaster : ℕ → List Tag
  lastWorkerThread : ℤ
  master : MasterPc
  worker : ℕ → WorkerPc

namespace Sys

variable (s : Sys) (c x : Cid) (i j : ℕ)

def net : Net :=
  ⟨s.cbsul, s.csul, s.toWorker, s.toMaster, s.lastWorkerThread, s.master, s.worker⟩

@[simp] theorem setClient_self (f : Client → Client) :
    (s.setClient c f).client c = (s.client c).map f := by
  simp [setClient]

theorem setClient_id : s.setClient c id = s := by
  rw [setClient, Option.map_id_apply, update_eq_self]

section

variable (f : Client → Client)

include f

theorem setClient_ne {x : Cid} (h : x ≠ c) :
    (s.setClient c f).client x = s.client x := by
  simp [setClient, h]

@[simp] theorem setClient_loop : (s.setClient c f).loop = s.loop := rfl
@[simp] theorem setClient_hist : (s.setClient c f).hist = s.hist := rfl
@[simp] theorem setClient_nextCid :
    (s.setClient c f).nextCid = s.nextCid := rfl
@[simp] theorem setClient_net : (s.setClient c f).net = s.net := rfl

end

@[simp] theorem setLoop_self (f : EventLoop → EventLoop) :
    (s.setLoop i f).loop i = f (s.loop i) := by
  simp [setLoop]

theorem setLoop_ne (f : EventLoop → EventLoop) {j : ℕ} (h : j ≠ i) :
    (s.setLoop i f).loop j = s.loop j := by
  simp [setLoop, h]

theorem setLoop_id : s.setLoop i id = s := by
  rw [setLoop, id_eq, update_eq_self]

section

variable (f : EventLoop → EventLoop)

include f

@[simp] theorem setLoop_client :
    (s.setLoop i f).client = s.client := rfl
@[simp] theorem setLoop_hist : (s.setLoop i f).hist = s.hist := rfl
@[simp] theorem setLoop_nextCid :
    (s.setLoop i f).nextCid = s.nextCid := rfl
@[simp] theorem setLoop_net : (s.setLoop i f).net = s.net := rfl

end

section

variable (es : List Event)

include es

@[simp] theorem log_self : (s.log c es).hist c = s.hist c ++ es := by
  simp [log]

theorem log_ne {x : Cid} (h : x ≠ c) : (s.log c es).hist x = s.hist x := by
  simp [log, h]

@[simp] theorem log_client : (s.log c es).client = s.client := rfl
@[simp] theorem log_loop : (s.log c es).loop = s.loop := rfl
@[simp] theorem log_nextCid : (s.log c es).nextCid = s.nextCid := rfl
@[simp] theorem log_net : (s.log c es).net = s.net := rfl

end

section

variable (pc : WorkerPc)

include pc

@[simp] theorem setWorker_client : (s.setWorker i pc).client = s.client := rfl
@[simp] theorem setWorker_loop : (s.setWorker i pc).loop = s.loop := rfl
@[simp] theorem setWorker_hist : (s.setWorker i pc).hist = s.hist := rfl
@[simp] theorem setWorker_nextCid :
    (s.setWorker i pc).nextCid = s.nextCid := rfl
@[simp] theorem setWorker_cbsul : (s.setWorker i pc).cbsul = s.cbsul := rfl
@[simp] theorem setWorker_csul : (s.setWorker i pc).csul = s.csul := rfl
@[simp] theorem setWorker_toWorker :
    (s.setWorker i pc).toWorker = s.toWorker := rfl
@[simp] theorem setWorker_toMaster :
    (s.setWorker i pc).toMaster = s.toMaster := rfl
@[simp] theorem setWorker_master : (s.setWorker i pc).master = s.master := rfl
theorem setWorker_worker :
    (s.setWorker i pc).worker = update s.worker i pc := rfl

@[simp] theorem setWorker_self : (s.setWorker i pc).worker i = pc := by
  simp [setWorker]

end

theorem setWorker_eta : s.setWorker i (s.worker i) = s := by
  rw [setWorker, update_eq_self]

theorem setWorker_ne (pc : WorkerPc) {j : ℕ} (h : j ≠ i) :
    (s.setWorker i pc).worker j = s.worker j := by
  simp [setWorker, h]

end Sys

/-- `l'` is `l` up to the client `c`, which it holds iff `P`. -/
structure Moves (c : Cid) (l l' : List Cid) (P : Prop) : Prop where
  nodup : l'.Nodup
  other : ∀ x, x ≠ c → (x ∈ l' ↔ x ∈ l)
  self : c ∈ l' ↔ P

namespace Moves

variable {c : Cid} {l l' : List Cid} {P : Prop}

theorem keep (hl : l.Nodup) (hc : c ∈ l ↔ P) : Moves c l l P := ⟨hl, fun _ _ => .rfl, hc⟩

theorem erase (hl : l.Nodup) (hP : ¬ P) : Moves c l (l.erase c) P :=
  ⟨hl.erase c, fun _ hx => mem_erase_of_ne hx, iff_of_false hl.not_mem_erase hP⟩

theorem tail (hl : (c :: l).Nodup) (hP : ¬ P) : Moves c (c :: l) l P := by
  simpa using erase (c := c) hl hP

theorem cons (hl : l.Nodup) (hc : c ∉ l) (hP : P) : Moves c l (c :: l) P :=
  ⟨nodup_cons.mpr ⟨hc, hl⟩, fun _ hx => by simp [hx], by simp [hP]⟩

theorem append (hl : l.Nodup) (hc : c ∉ l) (hP : P) : Moves c l (l ++ [c]) P :=
  ⟨hl.append (nodup_singleton c) (disjoint_singleton.mpr hc),
    fun _ hx => by simp [hx], by simp [hP]⟩

theorem mem_iff {pl : Cid → Place} {p : Place} {Q : Place → Prop} (h : Moves c l l' (Q p))
    (hl : ∀ x, x ∈ l ↔ Q (pl x)) (x : Cid) : x ∈ l' ↔ Q (update pl c p x) := by
  by_cases hx : x = c
  · subst hx
    rw [update_self, h.self]
  · rw [update_of_ne hx, h.other x hx, hl]

end Moves

variable {client client' : Cid → Option Client} {flag : Client → Bool} {l l' : ℕ → List Cid}

section

variable (h : FlagList client l flag)

include h

variable {c : Cid}

theorem FlagList.of_change (hclient : ∀ x, x ≠ c → client' x = client x)
    (hl : ∀ i, Moves c (l i) (l' i) (∃ k, client' c = some k ∧ k.vel = some i ∧ flag k = true)) :
    FlagList client' l' flag where
  nodup i := (hl i).nodup
  mem_iff i x := by
    by_cases hx : x = c
    · subst hx
      exact (hl i).self
    · rw [(hl i).other x hx, h.mem_iff, hclient x hx]

theorem FlagList.keep {k k' : Client} (hclient : ∀ x, x ≠ c → client' x = client x)
    (hk : client c = some k) (hk' : client' c = some k') (hvel : k'.vel = k.vel)
    (hflag : flag k' = flag k) (hl : ∀ i, l' i = l i) : FlagList client' l' flag := by
  refine h.of_change hclient fun i => ?_
  rw [hl]
  refine .keep (h.nodup i) ?_
  rw [h.mem_iff, hk, hk']
  simp [hvel, hflag]

theorem FlagList.erase {i : ℕ} {k : Client} (hclient : ∀ x, x ≠ c → client' x = client x)
    (hk : client c = some k) (hvel : k.vel = some i)
    (hout : ∀ k', client' c = some k' → flag k' = false)
    (hi : l' i = if flag k = true then (l i).erase c else l i) (hne : ∀ j, j ≠ i → l' j = l j) :
    FlagList client' l' flag := by
  refine h.of_change hclient fun j => ?_
  have hnot : ¬ ∃ k', client' c = some k' ∧ k'.vel = some j ∧ flag k' = true := by
    rintro ⟨k', hk', -, hf⟩
    rw [hout k' hk'] at hf
    exact absurd hf Bool.false_ne_true
  by_cases hj : j = i
  · subst hj
    rw [hi]
    split_ifs with hf
    · exact .erase (h.nodup j) hnot
    · exact .keep (h.nodup j) (iff_of_false (by simp [h.mem_iff, hk, hf]) hnot)
  · rw [hne j hj]
    exact .keep (h.nodup j) (iff_of_false (by simp [h.mem_iff, hk, hvel, Ne.symm hj]) hnot)

theorem FlagList.insert {i : ℕ} {k q : Client}
    (hclient : ∀ x, x ≠ c → client' x = client x) (hk : client c = some k) (hflag : flag k = false)
    (hk' : client' c = some q) (hvel' : q.vel = some i) (hflag' : flag q = true)
    (hi : l' i = c :: l i ∨ l' i = l i ++ [c]) (hne : ∀ j, j ≠ i → l' j = l j) :
    FlagList client' l' flag := by
  have hnot : ∀ j, c ∉ l j := fun j => by simp [h.mem_iff, hk, hflag]
  refine h.of_change hclient fun j => ?_
  by_cases hj : j = i
  · subst hj
    rcases hi with hi | hi <;> rw [hi]
    · exact .cons (h.nodup j) (hnot j) ⟨q, hk', hvel', hflag'⟩
    · exact .append (h.nodup j) (hnot j) ⟨q, hk', hvel', hflag'⟩
  · rw [hne j hj]
    exact .keep (h.nodup j) (iff_of_false (hnot j) (by simp [hk', hvel', Ne.symm hj]))

end

section

variable {n : ℕ} {pl : Cid → Place} {s s' : Sys} {c : Cid}

theorem update_eq_iff {p q : Place} (hc : p ≠ q) (hc' : pl c ≠ q) (x : Cid) :
    update pl c p x = q ↔ pl x = q := by
  by_cases hx : x = c
  · subst hx
    rw [update_self]
    exact ⟨fun e => absurd e hc, fun e => absurd e hc'⟩
  · rw [update_of_ne hx]

theorem Placed.clients_moved (h : Placed n pl s) {p : Place} (hl : ∀ j, Moves c (s.loop j).clients
      (s'.loop j).clients (p = .rest j ∨ p = .leaving j ∨ p = .busy j)) (j : ℕ) (x : Cid) :
    x ∈ (s'.loop j).clients ↔ update pl c p x = .rest j ∨ update pl c p x = .leaving j ∨
      update pl c p x = .busy j :=
  (hl j).mem_iff (Q := fun q => q = .rest j ∨ q = .leaving j ∨ q = .busy j) (h.clients_iff j) x

theorem Placed.back_num_of (h : Placed n pl s) (hne : ∀ x, x ≠ c → s'.client x = s.client x)
    (hc : pl c ≠ .back) {su : ConnSwapUnit} (hsu : su ∈ s.cbsul) :
    ∃ x k, su.data = .client x ∧ s'.client x = some k ∧ su.num = k.taridx := by
  obtain ⟨x, k, hd, hk, hnum⟩ := h.back_num su hsu
  refine ⟨x, k, hd, (hne x ?_).trans hk, hnum⟩
  rintro rfl
  exact hc ((h.back_iff x).mp (mem_filterMap.mpr ⟨su, hsu, by rw [hd]⟩))

theorem Placed.held_num_of (h : Placed n pl s) (hne : ∀ x, x ≠ c → s'.client x = s.client x)
    (hc : pl c ≠ .held) {idx : ℤ} {su : ConnSwapUnit} (hsu : s.master = .hold idx su) :
    ∃ x k, su.data = .client x ∧ s'.client x = some k ∧ idx = k.taridx := by
  obtain ⟨x, k, hd, hk, hnum⟩ := h.held_num idx su hsu
  refine ⟨x, k, hd, (hne x ?_).trans hk, hnum⟩
  rintro rfl
  exact hc ((h.held_iff x).mpr ⟨idx, su, hsu, hd⟩)

end

end Vire.Jump
