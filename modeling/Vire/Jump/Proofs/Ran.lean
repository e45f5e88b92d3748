import Vire.Jump.Proofs.Jump

/-!
# Where a command runs its steps

A command runs a step in two places: when its client issues it, and when its client arrives at the
next worker.  `Ran` says what both have in common.
-/

namespace Vire.Jump

variable {n : ℕ} {s s' s₀ s₁ : Sys} {i : ℕ} {c x : Cid} {k k₀ : Client} {r : Request} {K : Kind}
  {P : Cache}

theorem Serves.hist_ne (h : Serves i c s s') (hx : x ≠ c) : s'.hist x = s.hist x := by
  induction h with
  | refl => rfl
  | tail _ hstep ih =>
    refine Eq.trans ?_ ih
    cases hstep with
    | log es => exact Sys.log_ne _ _ _ hx
    | free => rw [freeClient_hist]
    | _ => rfl

/-- Client `c` runs a step of the request `r` on worker `i`, starting with the fields `k₀` in the
state `s₀`, which is `s` but for that client; the step collects `P` and ends in `s₁`. -/
structure Ran (n i : ℕ) (c : Cid) (k₀ : Client) (r : Request) (K : Kind) (P : Cache)
    (s s₀ s₁ : Sys) : Prop where
  loop : s₀.loop = s.loop
  hist : s₀.hist = s.hist
  others : ∀ x, x ≠ c → s₀.client x = s.client x
  self : s₀.client c = some k₀
  ready : Ready n i k₀ r K
  caches : K.Caches P
  collects : K.Collects s₀ i c k₀ P
  serves : Serves i c s₀ s₁
  stepped : Stepped n i k₀ r P (s.hist c) (s₁.client c) (s₁.hist c)
  closed : ∀ ckd, K = .kill ckd → (s.loop i).clients.Nodup →
    ∀ x ∈ (s.loop i).clients, x ≠ c → ckd.closes s c x = true → s₁.client x = none

theorem Ran.of_proc (f : Client → Client) (hk : s.client c = some k) (hr : Ready n i (f k) r K) :
    ∃ P, Ran n i c (f k) r K P s (s.setClient c f) (proc n (s.setClient c f) i c) := by
  have hself : (s.setClient c f).client c = some (f k) := by simp [hk]
  obtain ⟨hserve, P, hP, hcol, hst⟩ := proc_step (n := n) hself hr
  refine ⟨P, rfl, rfl, fun x hx => s.setClient_ne c f hx, hself, hr, hP, hcol, hserve, hst, ?_⟩
  rintro ckd rfl hnd x hx hne hcl
  refine proc_closed hself hr hnd hx hne ?_
  rw [← hcl]
  unfold ClientKillData.closes
  rw [s.setClient_ne c f hne]

theorem Ran.client_some (h : Ran n i c k₀ r K P s s₀ s₁) : ∃ k1, s₁.client c = some k1 := by
  have hst := h.stepped
  unfold Stepped at hst
  split_ifs at hst
  · exact ⟨_, hst.1⟩
  · exact ⟨_, hst.choose_spec.1⟩

theorem Ran.charge (h : Ran n i c k₀ r K P s s₀ s₁) (r' : Request) :
    Ran n i c k₀ r K P s s₀ (chargeStats s₁ i r') :=
  { h with serves := h.serves.tail (.charge r') }

def Client.begin (k : Client) (r : Request) : Client :=
  { k with cmd := some r, querybuf := k.querybuf.tail }

def Client.arrived (k : Client) (i : ℕ) : Client :=
  { k with vel := some i, curidx := i, steps := k.steps + 1 }

theorem arrive_eq {k1 : Client} (ae : Bool)
    (hk1 : (proc n (s.setClient c (·.arrived i)) i c).client c = some k1) :
    arrive n s i c ae =
      if k1.jump then (proc n (s.setClient c (·.arrived i)) i c).setWorker i (.dispatch c)
      else linkClientToEventloop (proc n (s.setClient c (·.arrived i)) i c) i c ae := by
  unfold Client.arrived at hk1 ⊢
  simp only [arrive, hk1]

theorem processCommand_ran {h : List Event} (hk : s.client c = some k) (hR : Rest n i k h)
    (hn : 0 < n) (hopen : k.closeAfterReply = false) (r : Request) :
    (∃ K P, Ran n i c (k.begin r) r K P s (s.setClient c (·.begin r))
      (processCommand n s i c r)) ∨
    (kind? r = none ∧ Serves i c (s.setClient c (·.begin r)) (processCommand n s i c r) ∧
      Answered (k.begin r) (s.hist c) ((processCommand n s i c r).client c)
        ((processCommand n s i c r).hist c)) := by
  set s₀ := s.setClient c (·.begin r) with hs0
  have hk0 : s₀.client c = some (k.begin r) := by simp [hs0, hk]
  have hproc : processCommand n s i c r = proc n s₀ i c ∨
      processCommand n s i c r = chargeStats (proc n s₀ i c) i r := by
    unfold processCommand
    cases r.proc
    case close => exact .inl rfl
    all_goals exact .inr rfl
  cases hkind : kind? r with
  | some K =>
    have hr : Ready n i (k.begin r) r K :=
      ⟨rfl, hkind, hR.curidx, hR.sd, hopen, hR.steps.trans_lt hn,
        fun h1 => absurd hR.steps (Nat.one_le_iff_ne_zero.mp h1)⟩
    obtain ⟨P, hran⟩ := Ran.of_proc (·.begin r) hk hr
    rcases hproc with he | he
    · exact .inl ⟨K, P, he ▸ hran⟩
    · exact .inl ⟨K, P, he ▸ hran.charge r⟩
  | none =>
    obtain ⟨hs, ha⟩ := proc_other (n := n) hk0 rfl hkind hR.steps hR.sd hopen
    rcases hproc with he | he
    · exact .inr ⟨rfl, he ▸ hs, he ▸ ha⟩
    · exact .inr ⟨rfl, he ▸ hs.tail (.charge r), he ▸ ha⟩

theorem Detached.ran {h : List Event} (hk : s.client c = some k) (hd : Detached n k h)
    (htar : k.taridx = i) :
    ∃ r K P w, Ran n i c (k.arrived i) r K P s (s.setClient c (·.arrived i))
      (proc n (s.setClient c (·.arrived i)) i c) ∧ w < n ∧ (w + (k.steps + 1)) % n = i ∧
      UnderWay n w k.steps r h := by
  obtain ⟨-, r, K, w, hr, hw, hmod, hu⟩ := hd.ready htar
  obtain ⟨P, hran⟩ := Ran.of_proc (·.arrived i) hk hr
  exact ⟨r, K, P, w, hran, hw, hmod, hu⟩

end Vire.Jump
