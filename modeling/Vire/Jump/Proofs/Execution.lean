import Vire.Jump.Proofs.Good

/-!
# A command from its first step to its last

The history of a client tells how far its command is.  A property of the collected result that every
step keeps holds of the reply.
-/

namespace Vire.Jump

open List

variable {n ncmd : ℕ} {pl : Cid → Place} {s s' : Sys} {i w w' t t' m a b : ℕ} {c : Cid}
  {q q' : Request} {rep : Reply} {K : Kind} {h h₀ h₁ : List Event} {st : Prop}

theorem Settled.not_run (hh : Settled n i h) (j : ℕ) (l : List Event) : h ≠ l ++ [.run j] := by
  intro he
  have hlast := congrArg getLast? he
  rw [getLast?_concat] at hlast
  cases hh with
  | nil => cases hlast
  | reply rep _ =>
    rw [getLast?_concat] at hlast
    cases hlast
  | block r rep _ _ _ =>
    rw [Jump.block, ← cons_append, ← append_assoc, getLast?_concat] at hlast
    cases hlast

theorem runs_ne_issue (n w m : ℕ) : ∀ e ∈ runs n w m, ∀ w' q', e ≠ .issue w' q' := by
  rintro e he w' q' rfl
  simp [runs] at he

theorem append_issue_inj {l l' : List Event} (hl : ∀ e ∈ l, ∀ w q, e ≠ .issue w q)
    (hl' : ∀ e ∈ l', ∀ w q, e ≠ .issue w q)
    (he : h₀ ++ .issue w q :: l = h₁ ++ .issue w' q' :: l') :
    h₀ = h₁ ∧ w = w' ∧ q = q' ∧ l = l' := by
  rcases append_eq_append_iff.mp he with ⟨u, hu, hv⟩ | ⟨u, hu, hv⟩
  · cases u with
    | nil =>
      obtain ⟨⟨rfl, rfl⟩, rfl⟩ := hv
      exact ⟨by simp [hu], rfl, rfl, rfl⟩
    | cons e u =>
      simp only [cons_append, cons.injEq] at hv
      exact absurd rfl (hl (.issue w' q') (by rw [hv.2]; simp) w' q')
  · cases u with
    | nil =>
      obtain ⟨⟨rfl, rfl⟩, rfl⟩ := hv
      exact ⟨by simp [hu], rfl, rfl, rfl⟩
    | cons e u =>
      simp only [cons_append, cons.injEq] at hv
      exact absurd rfl (hl' (.issue w q) (by rw [hv.2]; simp) w q)

theorem underWay_inj (he : h₀ ++ .issue w q :: runs n w t = h₁ ++ .issue w' q' :: runs n w' t') :
    h₀ = h₁ ∧ w = w' ∧ q = q' ∧ t = t' := by
  obtain ⟨rfl, rfl, rfl, hruns⟩ :=
    append_issue_inj (runs_ne_issue n w t) (runs_ne_issue n w' t') he
  have := congrArg length hruns
  simp only [runs, length_map, length_range] at this
  exact ⟨rfl, rfl, rfl, this⟩

theorem not_settled_underWay (l : List Event) (w q) (t : ℕ) :
    ¬ Settled n i (l ++ .issue w q :: runs n w (t + 1)) := by
  intro hS
  refine hS.not_run ((w + t) % n) (l ++ .issue w q :: runs n w t) ?_
  rw [runs_succ, append_assoc, cons_append]

theorem Inv.underWay (hI : Inv n pl s) (hB : Between True pl)
    (hh : s.hist c = h₀ ++ .issue w q :: runs n w (t + 1)) :
    ∃ k j, s.client c = some k ∧ Jumping n j k (s.hist c) ∧ k.steps = t ∧ k.cmd = some q ∧
      (w + t) % n = j ∧ (pl c = .leaving j ∨ pl c = .out j ∨ pl c = .back ∨ pl c = .held ∨
        ∃ i, pl c = .queued i ∧ (w + (t + 1)) % n = i) := by
  have hcmd : ∀ {k j}, s.client c = some k → Jumping n j k (s.hist c) →
      k.steps = t ∧ k.cmd = some q ∧ (w + t) % n = j := by
    intro k j _ hJ
    obtain ⟨r, K, w', hr, -, -, -, hmod, h₁, -, he⟩ := hJ.cmd
    rw [hh] at he
    obtain ⟨-, rfl, rfl, ht⟩ := underWay_inj he
    obtain rfl : t = k.steps := Nat.succ_inj.mp ht
    exact ⟨rfl, hr, hmod⟩
  have hdet : ∀ {k}, s.client c = some k → Detached n k (s.hist c) → ∃ j, s.client c = some k ∧
      Jumping n j k (s.hist c) ∧ k.steps = t ∧ k.cmd = some q ∧ (w + t) % n = j := by
    intro k hk hd
    obtain ⟨j, -, hJ⟩ := hd.jumping
    exact ⟨j, hk, hJ, hcmd hk hJ⟩
  have hph := hI.phase c
  have hsettled : ∀ i, ¬ Settled n i (s.hist c) := fun i => by
    rw [hh]
    exact not_settled_underWay h₀ w q t
  rcases hp : pl c with _ | _ | i | i | i | _ | _ | i | _ | i | i <;> rw [hp] at hph
  · obtain ⟨-, i, hS⟩ := hph
    exact absurd hS (hsettled i)
  · exact absurd hp (hB.strict trivial c).1
  · obtain ⟨-, k, -, hR⟩ := hph
    exact absurd hR.hist (hsettled i)
  · obtain ⟨-, k, hk, -, -, hJ⟩ := hph
    obtain ⟨h₁, h2, h3⟩ := hcmd hk hJ
    exact ⟨k, i, hk, hJ, h₁, h2, h3, .inl rfl⟩
  · obtain ⟨-, k, hk, -, -, -, -, -, hJ⟩ := hph
    obtain ⟨h₁, h2, h3⟩ := hcmd hk hJ
    exact ⟨k, i, hk, hJ, h₁, h2, h3, .inr (.inl rfl)⟩
  · obtain ⟨k, hk, hd⟩ := hph
    obtain ⟨j, hk, hJ, h₁, h2, h3⟩ := hdet hk hd
    exact ⟨k, j, hk, hJ, h₁, h2, h3, .inr (.inr (.inl rfl))⟩
  · obtain ⟨k, hk, hd⟩ := hph
    obtain ⟨j, hk, hJ, h₁, h2, h3⟩ := hdet hk hd
    exact ⟨k, j, hk, hJ, h₁, h2, h3, .inr (.inr (.inr (.inl rfl)))⟩
  · obtain ⟨hi, k, hk, hd, htar⟩ := hph
    obtain ⟨j, hk, hJ, h₁, h2, h3⟩ := hdet hk hd
    obtain ⟨-, r, K, w', -, -, hmod, h', -, he⟩ := hd.ready htar
    rw [hh] at he
    obtain ⟨-, rfl, -, -⟩ := underWay_inj he
    refine ⟨k, j, hk, hJ, h₁, h2, h3, .inr (.inr (.inr (.inr ⟨i, rfl, ?_⟩)))⟩
    rw [← h₁]
    exact hmod
  · exact absurd hp (hB.strict trivial c).2
  · exact absurd hp (hB.busy c i)
  · exact absurd hp (hB.visiting c i)

/-- The command `q` that client `c` issued on worker `w`, when its history was `h₀`, visits its
`t`-th worker in the step from `s` to `s'`. -/
structure Visit (n : ℕ) (c : Cid) (w : ℕ) (q : Request) (h₀ : List Event) (t : ℕ) (k₀ : Client)
    (K : Kind) (P : Cache) (s s₀ s₁ s' : Sys) : Prop where
  ran : Ran n ((w + t) % n) c k₀ q K P s s₀ s₁
  after : After c s₁ s'
  steps : k₀.steps = t
  cache : t = 0 → k₀.cache = .null
  fixed : ∃ k, s.client c = some k ∧ k₀.fixed = k.fixed
  linked : ∀ j, c ∈ (s.loop j).clients ↔ t = 0 ∧ j = w
  hist : s.hist c ++ stepEvents ((w + t) % n) k₀ q = h₀ ++ .issue w q :: runs n w (t + 1)

section Visit

variable {k₀ : Client} {P : Cache} {s₀ s₁ : Sys}

section

variable (hv : Visit n c w q h₀ t k₀ K P s s₀ s₁ s')

include hv

theorem Visit.goes_on (ht : t + 1 < n) :
    s'.hist c = h₀ ++ .issue w q :: runs n w (t + 1) ∧ ∃ k, s'.client c = some k ∧ k.cache = P := by
  have hst := hv.ran.stepped
  unfold Stepped at hst
  rw [hv.steps, if_pos ht] at hst
  refine ⟨by rw [hv.after.hist, hst.2, hv.hist], jumpOn n P k₀, ?_, rfl⟩
  exact hv.after.jumping _ hst.1 rfl

theorem Visit.done (ht : t + 1 = n) :
    s'.hist c = h₀ ++ block n w q (P.answer q) := by
  have hst := hv.ran.stepped
  unfold Stepped at hst
  rw [hv.steps, if_neg ht.not_lt] at hst
  obtain ⟨-, -, -, he⟩ := hst
  rw [hv.after.hist, he, hv.hist, ht, block, append_assoc, cons_append]

/-- The command is under way with a collected result that `J` describes, or has replied with one. -/
def Collected (n : ℕ) (c : Cid) (w : ℕ) (q : Request) (h₀ : List Event) (J : ℕ → Cache → Prop)
    (s : Sys) : Prop :=
  (∃ t, t + 1 < n ∧ s.hist c = h₀ ++ .issue w q :: runs n w (t + 1) ∧
    ∀ k, s.client c = some k → J t k.cache) ∨
  ∃ P, J (n - 1) P ∧ h₀ ++ block n w q (P.answer q) <+: s.hist c

theorem Visit.collected {J : ℕ → Cache → Prop} (hJ : J t P) : Collected n c w q h₀ J s' := by
  have hlt : t < n := by
    have := hv.ran.ready.steps
    rwa [hv.steps] at this
  rcases Nat.lt_or_eq_of_le (Nat.succ_le_of_lt hlt) with ht | ht
  · obtain ⟨hh, k, hk, rfl⟩ := hv.goes_on ht
    refine .inl ⟨t, ht, hh, fun k' hk' => ?_⟩
    rw [hk] at hk'
    cases hk'
    exact hJ
  · obtain rfl : t = n - 1 := by omega
    exact .inr ⟨P, hJ, by rw [hv.done ht]⟩

end

end Visit

theorem Inv.visit_first (hI : Inv n pl s) (hp : pl c = .rest w) {k : Client} {P : Cache}
    {s₀ s₁ : Sys} (hk : s.client c = some k) (hran : Ran n w c (k.begin q) q K P s s₀ s₁)
    (hafter : After c s₁ s') : Visit n c w q (s.hist c) 0 (k.begin q) K P s s₀ s₁ s' := by
  obtain ⟨hw, k', hk', hR⟩ := hI.rest hp
  rw [hk] at hk'
  cases hk'
  have hmod : (w + 0) % n = w := Nat.mod_eq_of_lt hw
  refine ⟨by rwa [hmod], hafter, hR.steps, fun _ => hR.cache, ⟨k, hk, rfl⟩, fun j => ?_, ?_⟩
  · rw [hI.placed.clients_iff, hp]
    simp [eq_comm]
  · simp [stepEvents, Client.begin, hR.steps, runs, Nat.mod_eq_of_lt hw]

theorem Inv.visit_next (hI : Inv n pl s) (hB : Between st pl) {act : Act}
    (hstep : step n s act = some s') (hh : s.hist c = h₀ ++ .issue w q :: runs n w (t + 1)) :
    s'.hist c = s.hist c ∨ ∃ k K P s₀ s₁, s.client c = some k ∧
      Visit n c w q h₀ (t + 1) (k.arrived ((w + (t + 1)) % n)) K P s s₀ s₁ s' ∧
      (Registered act → s'.client c ≠ none) := by
  have hsettled : ∀ i, ¬ Settled n i (s.hist c) := fun i => by
    rw [hh]
    exact not_settled_underWay h₀ w q t
  cases step_effect hI hB hstep c with
  | same he => exact .inl he
  | reply i rep hp he =>
    obtain ⟨-, k, -, hR⟩ := hI.rest hp
    exact absurd hR.hist (hsettled i)
  | issue i k q' K P s₀ s₁ hp hk hran hafter =>
    obtain ⟨-, k, -, hR⟩ := hI.rest hp
    exact absurd hR.hist (hsettled i)
  | arrive i w' k q' K P s₀ s₁ hp hk hw hmod hu hran hafter halive =>
    obtain ⟨h₁, -, he⟩ := hu
    rw [hh] at he
    obtain ⟨rfl, rfl, rfl, ht⟩ := underWay_inj he
    obtain rfl : t = k.steps := Nat.succ_inj.mp ht
    subst hmod
    refine .inr ⟨k, K, P, s₀, s₁, hk, ⟨hran, hafter, rfl, fun h0 => absurd h0 (by simp),
      ⟨k, hk, rfl⟩, ?_, ?_⟩, halive⟩
    · intro j
      rw [hI.placed.clients_iff, hp]
      simp
    · rw [hh, runs_succ n w (k.steps + 1)]
      simp [stepEvents, Client.arrived]

theorem Inv.cache_kept (hI : Inv n pl s) {act : Act} (hstep : step n s act = some s')
    (hne : s.hist c ≠ []) (he : s'.hist c = s.hist c) {k' : Client} (hk' : s'.client c = some k') :
    ∃ k, s.client c = some k ∧ k'.cache = k.cache := by
  rcases (step_traced hstep).client c k' hk' with hc | ⟨k, hk, -, hcar⟩
  · exact absurd (hI.placed.fresh c hc.ge).2 hne
  · exact ⟨k, hk, congrArg Prod.fst (hcar he)⟩

section Executes

variable {r : ServerRun n ncmd}

theorem hist_grows (r : ServerRun n ncmd) (c : Cid) {m m' : ℕ} (hm : m ≤ m') :
    (r.state m).hist c <+: (r.state m').hist c := by
  induction m', hm using Nat.le_induction with
  | base => exact prefix_rfl
  | succ m' _ ih =>
    cases ha : r.act m' with
    | none => rwa [r.pause_eq ha]
    | some act => exact ih.trans ((step_traced (r.step_eq ha)).hist c)

theorem nextCid_mono (r : ServerRun n ncmd) {m m' : ℕ} (hm : m ≤ m') :
    (r.state m).nextCid ≤ (r.state m').nextCid := by
  induction m', hm using Nat.le_induction with
  | base => exact le_rfl
  | succ m' _ ih =>
    refine ih.trans ?_
    cases ha : r.act m' with
    | none => rw [r.pause_eq ha]
    | some act =>
      rcases (step_traced (r.step_eq ha)).ids with ⟨he, -⟩ | ⟨i, hcr⟩
      · exact he.ge
      · rw [hcr.nextCid]
        exact Nat.le_succ _

section

variable (hinv : ∀ m, ∃ pl, Inv n pl (r.state m) ∧ Between st pl)

include hinv

theorem connected_before {x : Cid}
    {k k' : Client} {m m' : ℕ} (hm : m ≤ m') (hk : (r.state m).client x = some k)
    (hk' : (r.state (m' + 1)).client x = some k') :
    ∃ k1, (r.state m').client x = some k1 ∧ k'.fixed = k1.fixed := by
  cases ha : r.act m' with
  | none =>
    rw [r.pause_eq ha] at hk'
    exact ⟨k', hk', rfl⟩
  | some act =>
    rcases (step_traced (r.step_eq ha)).client x k' hk' with hx | ⟨k1, hk1, hfix, -⟩
    · obtain ⟨pl, hI, -⟩ := hinv m
      have hph := hI.phase x
      rw [(hI.placed.fresh x (hx ▸ nextCid_mono r hm)).1, hk] at hph
      exact absurd hph.1 (by simp)
    · exact ⟨k1, hk1, hfix⟩

theorem connected_between {x : Cid} {k k' : Client}
    {m m' m'' : ℕ} (hk : (r.state m).client x = some k) (hm : m ≤ m') (hm' : m' ≤ m'')
    (hk' : (r.state m'').client x = some k') :
    ∃ k1, (r.state m').client x = some k1 ∧ k'.fixed = k1.fixed := by
  induction m'', hm' using Nat.le_induction generalizing k' with
  | base => exact ⟨k', hk', rfl⟩
  | succ m'' hm' ih =>
    obtain ⟨k2, hk2, hfix⟩ := connected_before hinv (hm.trans hm') hk hk'
    obtain ⟨k1, hk1, hfix'⟩ := ih hk2
    exact ⟨k1, hk1, hfix.trans hfix'⟩

theorem Executes.first (hex : Executes r c w q rep a b) :
    ∃ k₀ K P s₀ s₁, Visit n c w q ((r.state a).hist c) 0 k₀ K P (r.state a) s₀ s₁
      (r.state (a + 1)) := by
  obtain ⟨pl, hI, hB⟩ := hinv a
  have hpre := hex.begins
  have hne : (r.state (a + 1)).hist c ≠ (r.state a).hist c := by
    intro he
    rw [he] at hpre
    exact absurd hpre.length_le (by simp)
  cases ha : r.act a with
  | none => exact absurd (by rw [r.pause_eq ha]) hne
  | some act =>
    cases step_effect hI hB (r.step_eq ha) c with
    | same he => exact absurd he hne
    | reply i rep' hp he =>
      rw [he, prefix_append_right_inj] at hpre
      simp at hpre
    | issue i k q' K P s₀ s₁ hp hk hran hafter =>
      have hv := hI.visit_first hp hk hran hafter
      obtain ⟨l, he⟩ := hran.stepped.hist_eq
      obtain ⟨hi, k', hk', hR⟩ := hI.rest hp
      rw [hk] at hk'
      cases hk'
      have hev : stepEvents i (k.begin q') q' = [.issue i q', .run i] := by
        simp [stepEvents, Client.begin, hR.steps]
      rw [hafter.hist, he, hev, prefix_append_right_inj] at hpre
      obtain ⟨rfl, rfl⟩ : w = i ∧ q = q' := by
        simpa using hpre
      exact ⟨_, K, P, s₀, s₁, hv⟩
    | arrive i w' k q' K P s₀ s₁ hp hk hw hmod hu hran hafter halive =>
      obtain ⟨l, he⟩ := hran.stepped.hist_eq
      rw [hafter.hist, he, prefix_append_right_inj] at hpre
      simp [stepEvents, Client.arrived] at hpre

theorem Executes.collect (hex : Executes r c w q rep a b) (J : ℕ → Cache → Prop)
    (hfirst : ∀ k₀ K P s₀ s₁, Visit n c w q ((r.state a).hist c) 0 k₀ K P (r.state a) s₀ s₁
      (r.state (a + 1)) → J 0 P)
    (hnext : ∀ m t k₀ K P s₀ s₁, a < m → m ≤ b → t + 1 < n → J t k₀.cache →
      Visit n c w q ((r.state a).hist c) (t + 1) k₀ K P (r.state m) s₀ s₁ (r.state (m + 1)) →
      J (t + 1) P) :
    ∃ P, J (n - 1) P ∧ rep = P.answer q := by
  have key : ∀ m, a + 1 ≤ m → m ≤ b + 1 →
      Collected n c w q ((r.state a).hist c) J (r.state m) := by
    intro m hm
    induction m, hm using Nat.le_induction with
    | base =>
      intro _
      obtain ⟨k₀, K, P, s₀, s₁, hv⟩ := hex.first hinv
      exact hv.collected (hfirst _ _ _ _ _ hv)
    | succ m hm ih =>
      intro hmb
      rcases ih (by omega) with ⟨t, ht, hh, hJ⟩ | ⟨P, hJ, hpre⟩
      · cases ha : r.act m with
        | none => exact .inl ⟨t, ht, by rwa [r.pause_eq ha], by rwa [r.pause_eq ha]⟩
        | some act =>
          obtain ⟨pl, hI, hB⟩ := hinv m
          rcases hI.visit_next hB (r.step_eq ha) hh with he | ⟨k, K, P, s₀, s₁, hk, hv, -⟩
          · -- the command waits, and its client keeps the cache
            refine .inl ⟨t, ht, he.trans hh, fun k' hk' => ?_⟩
            obtain ⟨k, hk, hcache⟩ := hI.cache_kept (r.step_eq ha) (by simp [hh]) he hk'
            rw [hcache]
            exact hJ k hk
          · exact hv.collected
              (hnext m t (k.arrived _) K P s₀ s₁ (by omega) (by omega) ht (hJ k hk) hv)
      · exact .inr ⟨P, hJ, hpre.trans (hist_grows r c (Nat.le_succ m))⟩
  rcases key (b + 1) (Nat.succ_le_succ hex.le) le_rfl with ⟨t, ht, hh, -⟩ | ⟨P, hJ, hpre⟩
  · have hlen := congrArg length hh
    rw [hex.ends] at hlen
    simp only [block, runs, length_append, length_cons, length_map,
      length_range, length_nil] at hlen
    omega
  · refine ⟨P, hJ, ?_⟩
    rw [hex.ends, prefix_append_right_inj] at hpre
    have := hpre.eq_of_length (by simp [block])
    simpa [block] using this.symm

end

end Executes

end Vire.Jump
