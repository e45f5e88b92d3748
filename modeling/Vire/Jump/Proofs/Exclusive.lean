import Mathlib.Algebra.BigOperators.Fin
import Vire.Jump.Proofs.Ownership

/-!
# Event loops own their clients

As long as no client that is scheduled for asynchronous freeing starts a jump, a client that moves
is in no list of any event loop, and a linked one is in the lists of its own only.  Without the
condition `clients_to_close` keeps a client that moves.
-/

namespace Vire.Jump

variable {n ncmd : ℕ} {pl : Cid → Place} {s : Sys} {c : Cid} {k : Client} {i : ℕ} {st : Prop}

theorem Inv.vel_or_unlisted (h : Inv n pl s) (hB : Between st pl) (hk : s.client c = some k) :
    (∃ i, k.vel = some i ∧ c ∈ (s.loop i).clients) ∨
      (k.pendingWrite = false ∧ k.closeAsap = false ∧ k.unblocked = false ∧
        ∀ i, c ∉ (s.loop i).clients) := by
  have hout : (∀ i, pl c ≠ .rest i ∧ pl c ≠ .leaving i) → ∀ i, c ∉ (s.loop i).clients := by
    intro hp i hmem
    rcases (h.placed.clients_iff i c).mp hmem with h1 | h1 | h1
    · exact (hp i).1 h1
    · exact (hp i).2 h1
    · exact hB.busy c i h1
  have hph := h.phase c
  rw [hk] at hph
  cases hp : pl c <;> rw [hp] at hph hout
  case gone => exact absurd hph.1 (by simp)
  case dropped => exact absurd hph (by simp [Phase])
  case rest i =>
    obtain ⟨-, k', he, hR⟩ := hph
    cases he
    exact .inl ⟨i, hR.vel, (h.placed.clients_iff i c).mpr (.inl hp)⟩
  case leaving i =>
    obtain ⟨-, k', he, hv, -⟩ := hph
    cases he
    exact .inl ⟨i, hv, (h.placed.clients_iff i c).mpr (.inr (.inl hp))⟩
  case out i =>
    obtain ⟨-, k', he, -, -, h1, h2, h3, -⟩ := hph
    cases he
    exact .inr ⟨h1, h2, h3, hout (by simp)⟩
  case busy i => exact absurd hp (hB.busy c i)
  case visiting i => exact absurd hp (hB.visiting c i)
  case lost =>
    obtain ⟨k', he, h1, h2, h3, -⟩ := hph
    cases he
    exact .inr ⟨h1, h2, h3, hout (by simp)⟩
  case queued i =>
    obtain ⟨-, k', he, hd, -⟩ := hph
    cases he
    exact .inr ⟨hd.pendingWrite, hd.closeAsap, hd.unblocked, hout (by simp)⟩
  all_goals
    obtain ⟨k', he, hd⟩ := hph
    cases he
    exact .inr ⟨hd.pendingWrite, hd.closeAsap, hd.unblocked, hout (by simp)⟩

theorem Inv.inTransit (h : Inv n pl s) (ht : InTransit s c) :
    pl c = .back ∨ (∃ i, pl c = .queued i) ∨ pl c = .held ∨ ∃ i, pl c = .out i := by
  rcases ht with ht | ⟨i, ht⟩ | ht | ⟨i, k, hw, hk, h1⟩
  · exact .inl ((h.placed.back_iff c).mp ht)
  · exact .inr (.inl ⟨i, (h.placed.queued_iff i c).mp ht⟩)
  · exact .inr (.inr (.inl ((h.placed.held_iff c).mpr ht)))
  · rcases (h.placed.dispatch_iff i c).mp hw with hp | hp
    · have hph := h.phase c
      rw [hp, hk] at hph
      obtain ⟨-, k', he, -, h0, -⟩ := hph
      cases he
      omega
    · exact .inr (.inr (.inr ⟨i, hp⟩))

theorem Inv.exclusive (h : Inv n pl s) (hB : Between st pl) : Exclusive s := by
  -- a client without a flag is in no list but possibly the client list
  have hflag : ∀ c j, Listed s c j → c ∈ (s.loop j).clients ∨
      ∃ k, s.client c = some k ∧ k.vel = some j ∧
        (k.pendingWrite = true ∨ k.unblocked = true ∨ k.closeAsap = true) := by
    rintro c j (hm | hm | hm | hm)
    · exact .inl hm
    · obtain ⟨k, hk, hv, hf⟩ := (h.lists.pendingWrite.mem_iff j c).mp hm
      exact .inr ⟨k, hk, hv, .inl hf⟩
    · obtain ⟨k, hk, hv, hf⟩ := (h.lists.unblocked.mem_iff j c).mp hm
      exact .inr ⟨k, hk, hv, .inr (.inl hf)⟩
    · obtain ⟨k, hk, hv, hf⟩ := (h.lists.toClose.mem_iff j c).mp hm
      exact .inr ⟨k, hk, hv, .inr (.inr hf)⟩
  have hown : ∀ c i, c ∈ (s.loop i).clients → ∃ k, s.client c = some k ∧ k.vel = some i := by
    intro c i hm
    have hph := h.phase c
    rcases (h.placed.clients_iff i c).mp hm with hp | hp | hp
    · rw [hp] at hph
      obtain ⟨-, k, hk, hR⟩ := hph
      exact ⟨k, hk, hR.vel⟩
    · rw [hp] at hph
      obtain ⟨-, k, hk, hv, -⟩ := hph
      exact ⟨k, hk, hv⟩
    · exact absurd hp (hB.busy c i)
  refine ⟨fun c ht j hl => ?_, fun c i hm => ?_, fun c k hk => ?_, fun c k hk => ?_⟩
  · have hnot : ∀ i, c ∉ (s.loop i).clients := by
      intro i hm
      have := (h.placed.clients_iff i c).mp hm
      rcases h.inTransit ht with hp | ⟨_, hp⟩ | hp | ⟨_, hp⟩ <;> simp [hp] at this
    rcases hflag c j hl with hm | ⟨k, hk, -, hf⟩
    · exact hnot j hm
    · rcases h.vel_or_unlisted hB hk with ⟨i, -, hm⟩ | ⟨h1, h2, h3, -⟩
      · exact hnot i hm
      · simp [h1, h2, h3] at hf
  · obtain ⟨k, hk, hv⟩ := hown c i hm
    refine ⟨k, hk, hv, fun j hl => ?_⟩
    have hj : ∃ k', s.client c = some k' ∧ k'.vel = some j := by
      rcases hflag c j hl with hm' | ⟨k', hk', hv', -⟩
      · exact hown c j hm'
      · exact ⟨k', hk', hv'⟩
    obtain ⟨k', hk', hv'⟩ := hj
    rw [hk] at hk'
    cases hk'
    rw [hv] at hv'
    exact (Option.some.inj hv').symm
  · refine ⟨fun hf => ?_, fun ⟨i, hm⟩ => ?_⟩
    · rcases h.vel_or_unlisted hB hk with ⟨i, hv, -⟩ | ⟨h1, -⟩
      · exact ⟨i, (h.lists.pendingWrite.mem_iff i c).mpr ⟨k, hk, hv, hf⟩⟩
      · rw [h1] at hf
        exact absurd hf Bool.false_ne_true
    · obtain ⟨k', hk', -, hf⟩ := (h.lists.pendingWrite.mem_iff i c).mp hm
      rw [hk] at hk'
      cases hk'
      exact hf
  · refine ⟨fun hf => ?_, fun ⟨i, hm⟩ => ?_⟩
    · rcases h.vel_or_unlisted hB hk with ⟨i, hv, -⟩ | ⟨-, h1, -⟩
      · exact ⟨i, (h.lists.toClose.mem_iff i c).mpr ⟨k, hk, hv, hf⟩⟩
      · rw [h1] at hf
        exact absurd hf Bool.false_ne_true
    · obtain ⟨k', hk', -, hf⟩ := (h.lists.toClose.mem_iff i c).mp hm
      rw [hk] at hk'
      cases hk'
      exact hf

/-- In a run whose first hand-overs are of clients not scheduled for freeing, every state has its
places. -/
theorem inv_of_run (hn : 0 < n) (r : ServerRun n ncmd) (hr : r.Meets Tidy) (m : ℕ) :
    ∃ pl, Inv n pl (r.state m) ∧ Between False pl :=
  r.invariant (I := fun s => ∃ pl, Inv n pl s ∧ Between False pl) hr
    ⟨_, init_inv n ncmd, init_between False⟩
    (fun _ _ _ ⟨_, h, hB⟩ ht hstep => step_inv hn h hB ht False.elim hstep) m

/-- Event loops own their clients, in every run in which no client with CLIENT_CLOSE_ASAP starts a
jump. -/
theorem exclusive_of_tidy (hn : 0 < n) (r : ServerRun n ncmd) (hr : r.Meets Tidy) (m : ℕ) :
    Exclusive (r.state m) := by
  obtain ⟨pl, h, hB⟩ := inv_of_run hn r hr m
  exact h.exclusive hB

def clientListRequest : Request := ⟨.client, [ascii ['l', 'i', 's', 't']], 0, 0⟩

def jumpOnce : List Act :=
  connects 0 5 ++ [.readQuery 0 0 (.data [clientListRequest]), .input 0 true, .dispatch 0 true]

theorem exclusive_jumpOnce : ∃ r : ServerRun 2 0, Exclusive (r.state 7) ∧ InTransit (r.state 7) 0 :=
  let r : ServerRun 2 0 := .ofList jumpOnce (by decide)
  ⟨r, exclusive_of_tidy (by decide) r (Logic.Run.ofList_meets _ (by decide)) 7, .inl (by decide)⟩

/-- The reply of a first request cannot be sent at once, and no write event can be installed for
it: the client is scheduled for freeing.  Before it is freed, a CLIENT LIST makes it jump. -/
def jumpClosing : List Act :=
  connects 0 5 ++ [.readQuery 0 0 (.data [⟨.other true, [], 0, 0⟩]), .input 0 true, .input 0 true,
    .beforeSleep 0 (fun _ => .sent 0) (fun _ => false),
    .readQuery 0 0 (.data [clientListRequest]), .input 0 true, .dispatch 0 true]

/-- A client that moves is still in a list of an event loop. -/
theorem not_exclusive_jumpClosing :
    ∃ r : ServerRun 2 0, InTransit (r.state 11) 0 ∧ 0 ∈ ((r.state 11).loop 0).clientsToClose ∧
      ¬ Exclusive (r.state 11) := by
  let r : ServerRun 2 0 := .ofList jumpClosing (by decide)
  have ht : InTransit (r.state 11) 0 := .inl (by decide)
  have hl : 0 ∈ ((r.state 11).loop 0).clientsToClose := by decide
  exact ⟨r, ht, hl, fun h => h.inTransit 0 ht 0 (.inr (.inr (.inr hl)))⟩

/-- How often a client is in the client lists and the queues between threads. -/
def Sys.copies (n : ℕ) (s : Sys) (c : Cid) : ℕ :=
  (unitClients s.cbsul).count c +
    ∑ i ∈ Finset.range n, ((unitClients (s.csul i)).count c + (s.loop i).clients.count c)

theorem Inv.copies_le (h : Inv n pl s) (hB : Between st pl) (c : Cid) :
    s.copies n c ≤ if (s.client c).isSome then 1 else 0 := by
  have hph := h.phase c
  simp only [Sys.copies, h.placed.back_nodup.count, h.placed.back_iff,
    (h.placed.queued_nodup _).count,
    h.placed.queued_iff, (h.placed.clients_nodup _).count, h.placed.clients_iff, hB.busy, or_false]
  cases hp : pl c <;> rw [hp] at hph <;> simp
  case back =>
    obtain ⟨k, hk, -⟩ := hph
    simp [hk]
  all_goals
    obtain ⟨hi, k, hk, -⟩ := hph
    simp [hi, hk]

/-- A client is in one list or queue at most, once, and one that was freed is in none. -/
theorem never_duplicated (hn : 0 < n) (r : ServerRun n ncmd) (hr : r.Meets Tidy) (m : ℕ) (c : Cid) :
    (r.state m).copies n c ≤ if ((r.state m).client c).isSome then 1 else 0 := by
  obtain ⟨pl, h, hB⟩ := inv_of_run hn r hr m
  exact h.copies_le hB c

theorem never_duplicated_jumpOnce :
    ∃ r : ServerRun 2 0, (r.state 7).copies 2 0 ≤ 1 ∧ InTransit (r.state 7) 0 :=
  let r : ServerRun 2 0 := .ofList jumpOnce (by decide)
  ⟨r, never_duplicated (by decide) r (Logic.Run.ofList_meets _ (by decide)) 7 0, .inl (by decide)⟩

end Vire.Jump
