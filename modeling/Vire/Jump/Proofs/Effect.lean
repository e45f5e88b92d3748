import Vire.Jump.Proofs.Frame
import Vire.Jump.Proofs.Ownership

/-!
# What one step does to one client

Between two steps of its command a client keeps what it has collected, and its history changes only
with a reply or with a step of a command.
-/

namespace Vire.Jump

open Function List

variable {n : ℕ} {pl : Cid → Place} {s s' s₀ s₁ : Sys} {i : ℕ} {c : Cid} {a : Act} {st : Prop}

structure Created (i : ℕ) (s s' : Sys) : Prop where
  worker : s.worker i ≠ .idle
  nextCid : s'.nextCid = s.nextCid + 1
  client : ∃ sd peerid, s'.client = update s.client s.nextCid
    (some (newClient (s.loop i).nextClientId i sd peerid))
  self : (s'.loop i).nextClientId = ((s.loop i).nextClientId + 1) % 2 ^ 64
  others : ∀ j, j ≠ i → (s'.loop j).nextClientId = (s.loop j).nextClientId

/-- What every step leaves alone: histories grow, and a client that existed before keeps what never
changes, and its cache as long as its history is the same. -/
structure Traced (s s' : Sys) : Prop where
  hist : ∀ x, s.hist x <+: s'.hist x
  client : ∀ x k', s'.client x = some k' → x = s.nextCid ∨
    ∃ k, s.client x = some k ∧ k'.fixed = k.fixed ∧ (s'.hist x = s.hist x → k'.carried = k.carried)
  ids : (s'.nextCid = s.nextCid ∧ (∀ x, s.client x = none → s'.client x = none) ∧
    ∀ j, (s'.loop j).nextClientId = (s.loop j).nextClientId) ∨ ∃ i, Created i s s'

theorem Shift.fields (h : Shift n s a s₁) :
    s₁.client = s.client ∧ s₁.hist = s.hist ∧ s₁.nextCid = s.nextCid ∧ s₁.loop = s.loop := by
  cases h with
  | master ht h =>
    cases h with
    | masterPop =>
      unfold masterPop
      split <;> exact ⟨rfl, rfl, rfl, rfl⟩
    | masterPush =>
      unfold masterPush
      split <;> exact ⟨rfl, rfl, rfl, rfl⟩
    | acceptFail | accept | masterWrite | masterRead | masterReadFail => exact ⟨rfl, rfl, rfl, rfl⟩
    | _ => cases ht
  | _ => exact ⟨rfl, rfl, rfl, rfl⟩

theorem step_traced (hstep : step n s a = some s') : Traced s s' := by
  obtain ⟨s₁, hs, hf⟩ := step_shift hstep
  have hfields := hs.fields
  cases s₁
  obtain ⟨rfl, rfl, rfl, rfl⟩ := hfields
  cases hf with
  | refl =>
    exact ⟨fun _ => prefix_rfl, fun x k hk => .inr ⟨k, hk, rfl, fun _ => rfl⟩,
      .inl ⟨rfl, fun _ => id, fun _ => rfl⟩⟩
  | kept ht hk =>
    refine ⟨hk.hist, fun x k' hk' => ?_, .inl ⟨hk.nextCid, fun x hx => ?_, hk.nextClientId⟩⟩
    · obtain ⟨k, hk, hfix, -, hcar⟩ := hk.client x k' hk'
      exact .inr ⟨k, hk, hfix, hcar⟩
    · by_contra hsome
      obtain ⟨k', hk'⟩ := Option.ne_none_iff_exists'.mp hsome
      obtain ⟨k, hk, -⟩ := hk.client x k' hk'
      cases hx.symm.trans hk
  | @create i ht hw sd peerid =>
    refine ⟨fun _ => prefix_rfl, fun x k hk => ?_,
      .inr ⟨i, hw, rfl, ⟨sd, peerid, rfl⟩, by simp [createClient], fun j hj => ?_⟩⟩
    · by_cases hx : x = s.nextCid
      · exact .inl hx
      · simp only [createClient, update_of_ne hx] at hk
        exact .inr ⟨k, hk, rfl, fun _ => rfl⟩
    · simp [createClient, Sys.setLoop_ne _ _ _ hj]

/-- What follows the handler of client `c` only changes where that client is. -/
structure After (c : Cid) (s₁ s' : Sys) : Prop where
  hist : s'.hist = s₁.hist
  others : ∀ x, x ≠ c → s'.client x = s₁.client x
  jumping : ∀ k, s₁.client c = some k → k.jump = true → s'.client c = some k

/-- What the step `a` does to the history of client `c`. -/
inductive Effect (n : ℕ) (pl : Cid → Place) (s : Sys) (a : Act) (s' : Sys) (c : Cid) : Prop
  | same (h : s'.hist c = s.hist c)
  | reply (i : ℕ) (rep : Reply) (hp : pl c = .rest i) (h : s'.hist c = s.hist c ++ [.reply rep])
  | issue (i : ℕ) (k : Client) (r : Request) (K : Kind) (P : Cache) (s₀ s₁ : Sys)
      (hp : pl c = .rest i) (hk : s.client c = some k)
      (hran : Ran n i c (k.begin r) r K P s s₀ s₁) (hafter : After c s₁ s')
  | arrive (i w : ℕ) (k : Client) (r : Request) (K : Kind) (P : Cache) (s₀ s₁ : Sys)
      (hp : pl c = .queued i) (hk : s.client c = some k) (hw : w < n)
      (hmod : (w + (k.steps + 1)) % n = i) (hu : UnderWay n w k.steps r (s.hist c))
      (hran : Ran n i c (k.arrived i) r K P s s₀ s₁) (hafter : After c s₁ s')
      (halive : Registered a → s'.client c ≠ none)

theorem step_hist (hstep : step n s a = some s') (ha : ¬ a.runs) : s'.hist = s.hist := by
  obtain ⟨s₁, hs, hf⟩ := step_shift hstep
  rw [← hs.fields.2.1]
  cases hf with
  | refl | create => rfl
  | kept _ hk => exact hk.still ha

theorem processInput_eq {k : Client} {r : Request} {rest : List Request}
    (hk : s.client c = some k) (hq : k.querybuf = r :: rest) (hopen : k.closeAfterReply = false)
    (n i : ℕ) (linked ae : Bool) :
    ∃ pc, processInput n s i c linked ae = (processCommand n s i c r).setWorker i pc := by
  simp only [processInput, hk, hq, hopen]
  split
  · exact ⟨_, rfl⟩
  · split_ifs with hj
    · exact ⟨.dispatch c, by rw [afterInput, if_pos hj]⟩
    · exact ⟨_, (Sys.setWorker_eta ..).symm⟩

theorem processInput_effect (h : Inv n pl s) (hB : Between st pl) {linked : Bool}
    (hw : s.worker i = .input c linked) (ae : Bool) (x : Cid) :
    Effect n pl s a (processInput n s i c linked ae) x := by
  have hc := h.input_rest hB hw
  obtain ⟨hi, k, hk, hR⟩ := h.rest hc
  by_cases hreq : ∃ r rest, k.querybuf = r :: rest ∧ k.closeAfterReply = false
  · obtain ⟨r, rest, hq, hopen⟩ := hreq
    obtain ⟨pc, he⟩ := processInput_eq hk hq hopen n i linked ae
    rw [he]
    have hran := processCommand_ran hk hR (Nat.zero_lt_of_lt hi) hopen r
    by_cases hx : x = c
    · subst hx
      rcases hran with ⟨K, P, hran⟩ | ⟨-, -, k', -, -, hh | ⟨rep, hh⟩⟩
      · exact .issue i k r K P _ _ hc hk hran ⟨rfl, fun _ _ => rfl, fun _ hk _ => hk⟩
      · exact .same hh
      · exact .reply i rep hc hh
    · refine .same ?_
      rcases hran with ⟨K, P, hran⟩ | ⟨-, hs, -⟩
      · exact (hran.serves.hist_ne hx).trans (congrFun hran.hist x)
      · exact hs.hist_ne hx
  · -- the loop ends
    refine .same ?_
    simp only [processInput, hk]
    split
    · next r rest hq hopen => exact absurd ⟨r, rest, hq, hopen⟩ hreq
    · obtain ⟨_, -, hafter⟩ := afterInput_handled (e := False) s i c k linked ae
      exact congrFun (hafter.still id) x

theorem linkClientToEventloop_after (s : Sys) (i : ℕ) (c : Cid) (ae : Bool) :
    (linkClientToEventloop s i c ae).hist = s.hist ∧
      (∀ x, x ≠ c → (linkClientToEventloop s i c ae).client x = s.client x) ∧
      (ae = true → s.client c ≠ none → (linkClientToEventloop s i c ae).client c ≠ none) := by
  simp only [linkClientToEventloop]
  split_ifs with hae
  · exact ⟨rfl, fun x hx => Sys.setClient_ne _ _ _ hx, fun _ hne => by simpa using hne⟩
  · exact ⟨freeClient_hist .., fun x hx => (freeClient_ne hx).trans (Sys.setClient_ne _ _ _ hx),
      fun h => absurd h hae⟩

variable {rest : List ConnSwapUnit} {num : ℤ}

theorem arrive_ran (h : Inv n pl s) (hq : s.csul i = ⟨num, .client c⟩ :: rest) (ae : Bool) :
    ∃ w k r K P s₀ s₁, pl c = .queued i ∧ s.client c = some k ∧ w < n ∧
      (w + (k.steps + 1)) % n = i ∧ UnderWay n w k.steps r (s.hist c) ∧
      Ran n i c (k.arrived i) r K P s s₀ s₁ ∧
      After c s₁ (arrive n { s with csul := update s.csul i rest } i c ae) ∧
      (ae = true →
        (arrive n { s with csul := update s.csul i rest } i c ae).client c ≠ none) := by
  obtain ⟨hc, hi, k, hk, hdet, htar⟩ := h.queued hq
  obtain ⟨r, K, P, w, hran, hwn, hmod, hu⟩ :=
    hdet.ran (s := { s with csul := update s.csul i rest }) hk htar
  refine ⟨w, k, r, K, P, _, _, hc, hk, hwn, hmod, hu, { hran with }, ?_⟩
  set s₁ := proc n ({ s with csul := update s.csul i rest }.setClient c (·.arrived i)) i c
    with hs1
  obtain ⟨k1, hk1⟩ := hran.client_some
  rw [arrive_eq ae hk1, ← hs1]
  split_ifs with hj
  · exact ⟨⟨rfl, fun _ _ => rfl, fun _ hk _ => hk⟩, fun _ => by simp [hk1]⟩
  · obtain ⟨hh, ho, ha⟩ := linkClientToEventloop_after s₁ i c ae
    refine ⟨⟨hh, ho, fun k hk hjk => ?_⟩, fun hae => ha hae (by simp [hk1])⟩
    rw [hk1] at hk
    cases hk
    exact absurd hjk hj

theorem arrive_effect (h : Inv n pl s)
    (hq : s.csul i = ⟨num, .client c⟩ :: rest) (conn : NewConn) (ae : Bool) (x : Cid) :
    Effect n pl s (.pop i conn ae) (arrive n { s with csul := update s.csul i rest } i c ae)
      x := by
  obtain ⟨w, k, r, K, P, s₀, s₁, hc, hk, hwn, hmod, hu, hran, hafter, halive⟩ := arrive_ran h hq ae
  by_cases hx : x = c
  · subst hx
    exact .arrive i w k r K P s₀ s₁ hc hk hwn hmod hu hran hafter halive
  · refine .same ?_
    rw [hafter.hist, hran.serves.hist_ne hx, hran.hist]

theorem arrive_hist_ne (h : Inv n pl s) (hq : s.csul i = ⟨num, .client c⟩ :: rest) (ae : Bool) :
    (arrive n { s with csul := update s.csul i rest } i c ae).hist c ≠ s.hist c := by
  obtain ⟨w, k, r, K, P, s₀, s₁, -, -, -, -, -, hran, hafter, -⟩ := arrive_ran h hq ae
  obtain ⟨l, he⟩ := hran.stepped.hist_eq
  rw [hafter.hist, he]
  simp [stepEvents_ne_nil]

theorem step_effect (h : Inv n pl s) (hB : Between st pl) (hstep : step n s a = some s') (c : Cid) :
    Effect n pl s a s' c := by
  cases step_cases hstep with
  | @pop i tag real conn ae hw =>
    unfold workerPop
    split
    · exact .same rfl
    · exact .same rfl
    · next su rest _ hq =>
      obtain ⟨num, data⟩ := su
      dsimp only
      split
      · exact .same rfl
      · exact .same rfl
      · exact arrive_effect h hq _ ae c
      · exact .same rfl
  | input hw => exact processInput_effect h hB hw _ c
  | _ => exact .same (congrFun (step_hist hstep id) c)

end Vire.Jump
