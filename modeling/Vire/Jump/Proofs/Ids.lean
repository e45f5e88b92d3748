import Vire.Jump.Proofs.Effect

/-!
# Client ids

Every event loop numbers its own clients from 1, so ids tell clients apart only if there is a single
worker.
-/

namespace Vire.Jump

open Function List Option Logic

variable {n ncmd : ℕ} {pl : Cid → Place} {s s' : Sys} {a : Act} {i : ℕ} {c : Cid} {st : Prop}

theorem Inv.single (h : Inv 1 pl s) (c : Cid) :
    (∀ i, pl c ≠ .leaving i) ∧ (∀ i, pl c ≠ .out i) ∧ ∀ i, pl c ≠ .queued i := by
  have hph := h.phase c
  refine ⟨fun i hp => ?_, fun i hp => ?_, fun i hp => ?_⟩ <;> rw [hp] at hph
  · obtain ⟨-, k, -, -, -, hj⟩ := hph
    exact absurd hj.steps (by omega)
  · obtain ⟨-, k, -, -, -, -, -, -, hj⟩ := hph
    exact absurd hj.steps (by omega)
  · obtain ⟨-, k, -, hd, -⟩ := hph
    obtain ⟨j, -, hj⟩ := hd.jumping
    exact absurd hj.steps (by omega)

theorem Inv.tidy_single (h : Inv 1 pl s) (a : Act) : Tidy s a := by
  unfold Tidy
  split
  · intro c k hw
    rcases (h.placed.dispatch_iff _ c).mp hw with hp | hp
    · exact absurd hp ((h.single c).1 _)
    · exact absurd hp ((h.single c).2.1 _)
  · trivial

structure Numbered (s : Sys) : Prop where
  ids : ∀ c k, s.client c = some k → c < s.nextCid ∧ k.id = (c + 1) % 2 ^ 64
  next : (s.loop 0).nextClientId = (s.nextCid + 1) % 2 ^ 64

theorem Numbered.unique (h : Numbered s) (hlt : s.nextCid ≤ 2 ^ 64) : UniqueIds s := by
  intro c c' k k' hk hk' he
  obtain ⟨hc, hid⟩ := h.ids c k hk
  obtain ⟨hc', hid'⟩ := h.ids c' k' hk'
  have hmod : (c + 1) % 2 ^ 64 = (c' + 1) % 2 ^ 64 := hid.symm.trans (he.trans hid')
  have hlt1 : c < 2 ^ 64 := Nat.lt_of_lt_of_le hc hlt
  have hlt2 : c' < 2 ^ 64 := Nat.lt_of_lt_of_le hc' hlt
  have key : ∀ a b : ℕ, a < 2 ^ 64 → b < 2 ^ 64 → (a + 1) % 2 ^ 64 = (b + 1) % 2 ^ 64 → a = b := by
    intro a b _ _ _
    omega
  exact key c c' hlt1 hlt2 hmod

theorem step_numbered (h : Numbered s) (hR : Ranged 1 s) (hstep : step 1 s a = some s') :
    Numbered s' := by
  have htr := step_traced hstep
  rcases htr.ids with ⟨hnext, hnone, hids⟩ | ⟨i, hcr⟩
  · refine ⟨fun c k' hk' => ?_, by rw [hids, hnext, h.next]⟩
    rcases htr.client c k' hk' with rfl | ⟨k, hk, hfix, -⟩
    · -- no client has the next address
      have hc : s.client s.nextCid = none := by
        by_contra hsome
        obtain ⟨k, hk⟩ := ne_none_iff_exists'.mp hsome
        exact absurd (h.ids _ k hk).1 (Nat.lt_irrefl _)
      rw [hnone _ hc] at hk'
      cases hk'
    · obtain ⟨hlt, hid⟩ := h.ids c k hk
      exact ⟨hnext ▸ hlt, (congrArg Prod.fst hfix).trans hid⟩
  · have hi : i = 0 := by
      have := hR.lt hcr.worker
      omega
    subst hi
    obtain ⟨sd, peerid, hclient⟩ := hcr.client
    refine ⟨fun c k hk => ?_, ?_⟩
    · rw [hclient] at hk
      by_cases hc : c = s.nextCid
      · subst hc
        rw [update_self] at hk
        cases hk
        exact ⟨by rw [hcr.nextCid]; exact Nat.lt_succ_self _, h.next⟩
      · rw [update_of_ne hc] at hk
        obtain ⟨hlt, hid⟩ := h.ids c k hk
        exact ⟨by rw [hcr.nextCid]; exact Nat.lt_succ_of_lt hlt, hid⟩
    · rw [hcr.self, hcr.nextCid, h.next, Nat.mod_add_mod]

theorem Settled.answers_append {h : List Event} (hh : Settled n i h) (es : List Event) :
    answers none (h ++ es) = answers none h ++ answers none es := by
  induction hh generalizing es with
  | nil => rfl
  | reply rep _ ih => rw [append_assoc, ih, ih]; simp [answers]
  | @block w h r rep _ _ _ ih =>
    have hruns : ∀ l es, answers (some r) (runs n w l ++ es) = answers (some r) es := by
      intro l
      induction l with
      | zero => exact fun es => rfl
      | succ l ihl =>
        intro es
        rw [runs_succ, append_assoc, ihl]
        rfl
    rw [append_assoc, ih, ih]
    simp [Jump.block, answers, hruns]

variable {ckd : ClientKillData}

theorem parseKillOptions_killed {ckd' : ClientKillData} {args : List Sds}
    (h : parseKillOptions ckd args = .ok ckd') : ckd'.killed = ckd.killed := by
  induction ckd, args using parseKillOptions.induct with
  | case1 ckd =>
    cases h
    rfl
  | case2 => cases h
  | _ => simp_all [parseKillOptions]

theorem kind?_kill {r : Request} (h : kind? r = some (.kill ckd)) :
    ckd.killed = 0 ∧ (ckd.id ≠ 0 → r.args.length ≠ 2) := by
  simp only [kind?] at h
  split at h
  · next sub rest hproc hargs =>
    split_ifs at h
    · cases h
    · split at h
      · next ckd' hparse =>
        cases h
        rw [hargs]
        unfold parseKill at hparse
        split at hparse
        · cases hparse
        · cases hparse
          exact ⟨rfl, fun hid => absurd rfl hid⟩
        · next hne => exact ⟨parseKillOptions_killed hparse, fun _ hlen => by
            obtain ⟨x, rfl⟩ := length_eq_one_iff.mp (Nat.succ.inj hlen)
            exact hne x rfl⟩
      · cases h
  · split_ifs at h
    cases h
  · cases h

theorem closes_le_one (hu : UniqueIds s) {l : List Cid} (hnd : l.Nodup)
    (hid : ckd.id ≠ 0) : (l.filter (ckd.closes s c)).length ≤ 1 := by
  have hone : ∀ x, ckd.closes s c x = true → ∃ k, s.client x = some k ∧ k.id = ckd.id := by
    intro x hx
    unfold ClientKillData.closes at hx
    split at hx
    · cases hx
    · next k hk =>
      simp only [ClientKillData.selects, Bool.and_eq_true, Bool.or_eq_true, beq_iff_eq] at hx
      exact ⟨k, hk, hx.1.2.resolve_left hid⟩
  have hnd' := hnd.filter (ckd.closes s c)
  have hall : ∀ x ∈ l.filter (ckd.closes s c), ∀ y ∈ l.filter (ckd.closes s c), x = y := by
    intro x hx y hy
    obtain ⟨k, hk, he⟩ := hone x (mem_filter.mp hx).2
    obtain ⟨k', hk', he'⟩ := hone y (mem_filter.mp hy).2
    exact hu x y k k' hk hk' (he.trans he'.symm)
  rcases hl : l.filter (ckd.closes s c) with _ | ⟨x, _ | ⟨y, rest⟩⟩
  · exact Nat.zero_le _
  · exact le_rfl
  · rw [hl] at hnd' hall
    have hxy := hall x (by simp) y (by simp)
    simp [hxy] at hnd'

theorem step_killsOne (h : Inv 1 pl s) (hB : Between st pl) (hu : UniqueIds s) (hk1 : KillsOne s)
    (hstep : step 1 s a = some s') : KillsOne s' := by
  intro c r rep ckd hmem hkind hid
  have hset : ∀ i, pl c = .rest i → Settled 1 i (s.hist c) := by
    intro i hp
    obtain ⟨-, k, -, hR⟩ := h.rest hp
    exact hR.hist
  cases step_effect h hB hstep c with
  | same hh =>
    rw [hh] at hmem
    exact hk1 c r rep ckd hmem hkind hid
  | reply i rep' hp hh =>
    rw [hh, (hset i hp).answers_append, mem_append] at hmem
    rcases hmem with hmem | hmem
    · exact hk1 c r rep ckd hmem hkind hid
    · simp [answers] at hmem
  | arrive i _ _ _ _ _ _ _ hp => exact absurd hp ((h.single c).2.2 i)
  | issue i k r' K P s0 s1 hp hk hran hafter =>
    -- the only step of the command is also its last
    obtain ⟨-, k', hk', hR⟩ := h.rest hp
    rw [hk] at hk'
    cases hk'
    have h0 : (k.begin r').steps = 0 := hR.steps
    have hst := hran.stepped
    rw [Stepped, if_neg (by omega), stepEvents, if_pos h0] at hst
    obtain ⟨-, -, -, hh⟩ := hst
    rw [hafter.hist, hh, append_assoc, (hset i hp).answers_append, mem_append] at hmem
    rcases hmem with hmem | hmem
    · exact hk1 c r rep ckd hmem hkind hid
    · simp only [cons_append, nil_append, answers, mem_singleton,
        Prod.mk.injEq] at hmem
      obtain ⟨rfl, rfl⟩ := hmem
      have hK := hran.ready.kind
      rw [hkind] at hK
      cases hK
      obtain ⟨ckd1, ckd', hstart, rfl, -, hcount⟩ := hran.collects
      rw [if_pos h0] at hstart
      subst hstart
      obtain ⟨hzero, hlen⟩ := kind?_kill hkind
      have hnd : (s0.loop i).clients.Nodup := by
        rw [hran.loop]
        exact h.placed.clients_nodup i
      have hu0 : UniqueIds s0 := by
        have hsame : ∀ x kx, s0.client x = some kx → ∃ ky, s.client x = some ky ∧
            ky.id = kx.id := by
          intro x kx hx
          by_cases hxc : x = c
          · subst hxc
            rw [hran.self] at hx
            cases hx
            exact ⟨k, hk, rfl⟩
          · rw [hran.others x hxc] at hx
            exact ⟨kx, hx, rfl⟩
        intro x y kx ky hx hy he
        obtain ⟨kx', hx', hex⟩ := hsame x kx hx
        obtain ⟨ky', hy', hey⟩ := hsame y ky hy
        exact hu x y kx' ky' hx' hy' (hex.trans (he.trans hey.symm))
      refine ⟨ckd'.killed, ?_, ?_⟩
      · rw [hcount hnd, hzero, Nat.zero_add]
        exact closes_le_one hu0 hnd hid
      · rw [Cache.answer, killReply, if_neg (hlen hid)]

structure Single (s : Sys) : Prop where
  inv : ∃ pl, Inv 1 pl s ∧ Between False pl
  ranged : Ranged 1 s
  numbered : Numbered s
  killsOne : s.nextCid ≤ 2 ^ 64 → KillsOne s

theorem single_of_run (r : ServerRun 1 ncmd) (m : ℕ) : Single (r.state m) := by
  have htrue : r.Meets fun _ _ => True := fun _ _ _ => trivial
  refine r.invariant (I := Single) htrue ?_ (fun s a s' h _ hstep => ?_) m
  · exact ⟨⟨_, init_inv 1 ncmd, init_between False⟩, init_ranged 1 ncmd,
      ⟨fun _ _ hk => absurd hk (by simp [init]), rfl⟩,
      fun _ _ _ _ _ hmem => absurd hmem not_mem_nil⟩
  · obtain ⟨⟨pl, hI, hB⟩, hR, hN, hK⟩ := h
    refine ⟨step_inv (by decide) hI hB (hI.tidy_single a) False.elim hstep,
      step_ranged (by decide) hR hstep, step_numbered hN hR hstep, fun hlt => ?_⟩
    have hle : s.nextCid ≤ 2 ^ 64 := by
      refine le_trans ?_ hlt
      rcases (step_traced hstep).ids with ⟨hnext, -⟩ | ⟨i, hcr⟩
      · exact hnext.ge
      · exact hcr.nextCid ▸ Nat.le_succ _
    exact step_killsOne hI hB (hN.unique hle) (hK hle) hstep

theorem exec_connects {t : ℕ} {sd : ℤ} (hm : s.master = .idle) (hw : s.worker t = .idle)
    (hq : s.csul t = []) (hb : s.toWorker t = [])
    (ht : ((s.lastWorkerThread + 1) % n).toNat = t) (hsd : 0 < sd) :
    exec (step n) s (connects t sd) =
      some { createClient s t sd [] with lastWorkerThread := t } := by
  have hback : ∀ {β : Type} (f : ℕ → β) (x y : β), f t = y →
      update (update f t x) t y = f := by
    rintro β f x y rfl
    rw [update_idem, update_eq_self]
  simp [connects, exec, step, hm, hsd, dispatchConnNew, ht, masterWrite, hw, hb, hq, workerPop,
    createClient, Sys.setWorker, Sys.setLoop, hback _ _ _ hq, hback _ _ _ hw, hback _ _ _ hb]

theorem exec_connects_two (hn : n ≠ 1) :
    ∃ s', exec (step n) (init 0) (connects 0 5 ++ connects 1 6) = some s' ∧ s'.nextCid = 2 ∧
      s'.client 0 = some (newClient 1 0 5 []) ∧ s'.client 1 = some (newClient 1 1 6 []) := by
  have h1 : ((0 + 1 : ℤ) % n).toNat = 1 := by
    rcases n with _ | _ | n
    · rfl
    · exact absurd rfl hn
    · rfl
  rw [exec_append, exec_connects rfl rfl rfl rfl (by simp [init]) (by decide), bind_some,
    exec_connects rfl rfl rfl rfl h1 (by decide)]
  exact ⟨_, rfl, by simp [createClient, init, Sys.setLoop]⟩

/-- Ids tell clients apart exactly when there is a single worker. -/
theorem ids_unique_iff_single (n : ℕ) :
    (∀ ncmd (r : ServerRun n ncmd) (m : ℕ), (r.state m).nextCid ≤ 2 ^ 64 →
      UniqueIds (r.state m) ∧ KillsOne (r.state m)) ↔ n = 1 := by
  constructor
  · intro h
    by_contra hn
    obtain ⟨s', hs', hnext, h0, h1⟩ := exec_connects_two hn
    have hsome : (exec (step n) (init 0) (connects 0 5 ++ connects 1 6)).isSome = true := by
      rw [hs']
      rfl
    have hst := Run.ofList_state hsome (m := 8) le_rfl
    simp only [hs', get_some] at hst
    have hu := (h 0 (.ofList _ hsome) 8 (by rw [hst, hnext]; decide)).1
    rw [hst] at hu
    exact absurd (hu 0 1 _ _ h0 h1 rfl) (by decide)
  · rintro rfl ncmd r m hlt
    have h := single_of_run r m
    exact ⟨h.numbered.unique hlt, h.killsOne hlt⟩

/-- Two workers: two clients have id 1, and a third one closes both with one CLIENT KILL ID 1. -/
def killTwo : List Act :=
  connects 0 5 ++ connects 1 6 ++ connects 0 7 ++
    [.readQuery 0 2 (.data [⟨.client, [ascii ['k', 'i', 'l', 'l'], ascii ['i', 'd'], ascii ['1']],
      0, 0⟩]), .input 0 true, .dispatch 0 true, .readCuridx 0 0, .write 0 true, .masterRead 0 true,
    .masterPop, .masterPush, .masterWrite true, .read 1 true, .pop 1 .failed true]

theorem ids_clash_killTwo : ∃ r : ServerRun 2 0,
    ((r.state 12).client 0).map Client.id = some 1 ∧
    ((r.state 12).client 1).map Client.id = some 1 ∧
    (r.state 23).client 0 = none ∧ (r.state 23).client 1 = none ∧
    (answers none ((r.state 23).hist 2)).map Prod.snd = [.killed 2] :=
  ⟨.ofList killTwo (by decide), by decide, by decide, by decide, by decide, by decide⟩

end Vire.Jump
