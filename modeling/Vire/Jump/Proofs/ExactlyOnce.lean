import Vire.Jump.Proofs.Exclusive
import Vire.Jump.Proofs.Progress

/-!
# Exactly once on every worker

On lossless socket pairs, as long as no worker reads `c->curidx` of a client that is freed already,
a command that visits all workers runs one step on each of them in turn and queues one reply.  The
read of a freed client loses a notification, and with it another client.
-/

namespace Vire.Jump

open List Logic

variable {n ncmd : ℕ} {pl : Cid → Place} {s : Sys} {i w m : ℕ} {c : Cid} {q : Request} {rep : Reply}
  {h₀ : List Event} {k : Client}

def Place.spot? : Place → Option Spot
  | .rest i | .leaving i => some (.loop i)
  | .out i => some (.worker i)
  | .back => some .cbsul
  | .held => some .master
  | .queued i => some (.csul i)
  | _ => none

theorem Inv.at_iff (hI : Inv n pl s) (hB : Between True pl) (p : Spot) :
    At s c p ↔ (pl c).spot? = some p := by
  have hbusy := hB.busy c
  cases p with
  | loop i =>
    rw [At, hI.placed.clients_iff]
    cases hp : pl c <;> simp_all [Place.spot?]
  | cbsul =>
    rw [At, hI.placed.back_iff]
    cases hp : pl c <;> simp [Place.spot?]
  | csul i =>
    rw [At, hI.placed.queued_iff]
    cases hp : pl c <;> simp [Place.spot?]
  | master =>
    rw [At, ← hI.placed.held_iff]
    cases hp : pl c <;> simp [Place.spot?]
  | worker i =>
    rw [At, hI.placed.dispatch_iff]
    have hph := hI.phase c
    cases hp : pl c <;> rw [hp] at hph <;> simp only [Place.spot?, reduceCtorEq, false_and,
      or_self, or_false, false_or, Option.some.injEq, iff_false, Spot.worker.injEq,
        Place.leaving.injEq,
      Place.out.injEq, not_and, not_exists]
    case leaving j =>
      obtain ⟨-, k, hk, -, h0, -⟩ := hph
      intro _ k' hk'
      rw [hk] at hk'
      cases hk'
      omega
    case out j =>
      obtain ⟨-, k, hk, -, h1, -⟩ := hph
      exact ⟨And.left, fun hj => ⟨hj, k, hk, h1⟩⟩

theorem Inv.spot_iff (hI : Inv n pl s) (hB : Between True pl) :
    s.client c ≠ none ↔ ∃ p, (pl c).spot? = some p := by
  have hph := hI.phase c
  have hstrict := hB.strict trivial c
  cases hp : pl c <;> rw [hp] at hph
  case gone => simp [hph.1, Place.spot?]
  case dropped => exact absurd hp hstrict.1
  case lost => exact absurd hp hstrict.2
  case busy i => exact absurd hp (hB.busy c i)
  case visiting i => exact absurd hp (hB.visiting c i)
  case back =>
    obtain ⟨k, hk, -⟩ := hph
    simp [hk, Place.spot?]
  case held =>
    obtain ⟨k, hk, -⟩ := hph
    simp [hk, Place.spot?]
  all_goals
    obtain ⟨-, k, hk, -⟩ := hph
    simp [hk, Place.spot?]

theorem Good.accounted (h : Good n s) : Accounted n s := by
  obtain ⟨pl, hI, hB⟩ := h.inv
  have hunder : ∀ {c k j}, Jumping n j k (s.hist c) →
      k.jump = true ∧ ∃ w < n, ∃ q, UnderWay n w k.steps q (s.hist c) := by
    intro c k j hJ
    obtain ⟨q, K, w, -, -, -, hw, -, hu⟩ := hJ.cmd
    exact ⟨hJ.jump, w, hw, q, hu⟩
  refine ⟨fun c => ?_, fun c p p' hp hp' => ?_, hI.placed.clients_nodup, hI.placed.back_nodup,
    hI.placed.queued_nodup, fun c k hk => ?_, h.alive⟩
  · simp only [hI.at_iff hB]
    exact hI.spot_iff hB
  · rw [hI.at_iff hB] at hp hp'
    exact Option.some.inj (hp.symm.trans hp')
  · have hph := hI.phase c
    have hstrict := hB.strict trivial c
    rw [hk] at hph
    cases hp : pl c <;> rw [hp] at hph
    case gone => exact absurd hph.1 (by simp)
    case dropped => exact absurd hp hstrict.1
    case lost => exact absurd hp hstrict.2
    case busy i => exact absurd hp (hB.busy c i)
    case visiting i => exact absurd hp (hB.visiting c i)
    case rest i =>
      obtain ⟨hi, _, ⟨⟩, hR⟩ := hph
      exact .inl ⟨i, hi, (hI.at_iff hB _).mpr (by simp [hp, Place.spot?]), hR.vel,
        hR.steps, hR.jump, hR.hist⟩
    case leaving i =>
      obtain ⟨-, _, ⟨⟩, -, -, hJ⟩ := hph
      exact .inr (hunder hJ)
    case out i =>
      obtain ⟨-, _, ⟨⟩, -, -, -, -, -, hJ⟩ := hph
      exact .inr (hunder hJ)
    case queued i =>
      obtain ⟨-, _, ⟨⟩, hd, -⟩ := hph
      exact .inr (hunder hd.jumping.choose_spec.2)
    all_goals
      obtain ⟨_, ⟨⟩, hd⟩ := hph
      exact .inr (hunder hd.jumping.choose_spec.2)

theorem append_block (l : List Event) (n w : ℕ) (q : Request) (rep : Reply) :
    l ++ block n w q rep = (l ++ .issue w q :: runs n w n) ++ [.reply rep] := by
  rw [block, append_assoc, cons_append]

theorem Settled.block_index (hn : 0 < n) (hS : Settled n i (h₀ ++ Jump.block n w q rep)) :
    i = (w + n - 1) % n := by
  generalize hh : h₀ ++ Jump.block n w q rep = h at hS
  cases hS with
  | nil => simp [Jump.block] at hh
  | reply rep' hS =>
    rw [append_block] at hh
    obtain ⟨rfl, -⟩ := append_inj' hh rfl
    obtain ⟨t, rfl⟩ := Nat.exists_eq_succ_of_ne_zero hn.ne'
    exact absurd hS (not_settled_underWay h₀ w q t)
  | block q' rep' hS hw hK =>
    rw [append_block, append_block] at hh
    obtain ⟨he, -⟩ := append_inj' hh rfl
    obtain ⟨-, rfl, -, -⟩ := underWay_inj he
    rfl

theorem Good.linkedOnly (h : Good n s) (hn : 0 < n) (hc : s.client c ≠ none)
    (hh : s.hist c = h₀ ++ block n w q rep) : LinkedOnly s c ((w + n - 1) % n) := by
  obtain ⟨k, hk⟩ := Option.ne_none_iff_exists'.mp hc
  rcases h.accounted.hist c k hk with ⟨i, -, hat, hv, h0, hj, hS⟩ | ⟨-, w', -, q', h1, -, he⟩
  · rw [hh] at hS
    obtain rfl := hS.block_index hn
    exact ⟨fun p => ⟨fun hp => h.accounted.unique c _ _ hp hat, fun hp => hp ▸ hat⟩, k, hk, hv, h0,
      hj⟩
  · -- a history that ends with a reply is not under way
    have hlast := congrArg getLast? (hh.symm.trans he)
    rw [append_block, getLast?_concat, runs_succ, ← cons_append, ← append_assoc,
      getLast?_concat] at hlast
    cases hlast

theorem Good.announced (h : Good n s) (a : Act) : Announced s a := by
  cases a with
  | pop i conn ae =>
    intro tag real hw
    cases real with
    | true =>
      obtain ⟨su, rest, hq, htag⟩ := h.matched.head_tag hw
      exact ⟨su, rest, hq, htag.symm⟩
    | false => exact absurd hw (h.real i tag)
  | _ => trivial

theorem Issues.visit {r : ServerRun n ncmd} (hg : Good n (r.state m)) (hi : Issues r m i c q)
    (hK : (kind? q).isSome = true) :
    ∃ k0 K P s0 s1, Visit n c i q ((r.state m).hist c) 0 k0 K P (r.state m) s0 s1
      (r.state (m + 1)) ∧ (r.state (m + 1)).client c ≠ none := by
  obtain ⟨ae, linked, k, rest, ha, hw, hk, hq, hopen⟩ := hi
  obtain ⟨pl, hI, hB⟩ := hg.inv
  have hp := hI.input_rest hB hw
  obtain ⟨hin, k', hk', hR⟩ := hI.rest hp
  rw [hk] at hk'
  cases hk'
  have hstep : r.state (m + 1) = processInput n (r.state m) i c linked ae := by
    have hs := r.step_eq ha
    simp only [step, hw, Option.some.injEq] at hs
    exact hs.symm
  obtain ⟨pc, he⟩ := processInput_eq hk hq hopen n i linked ae
  rcases processCommand_ran hk hR (Nat.zero_lt_of_lt hin) hopen q with ⟨K, P, hran⟩ | ⟨hnone, -⟩
  · rw [hstep, he]
    obtain ⟨k1, hk1⟩ := hran.client_some
    exact ⟨_, K, P, _, _,
      hI.visit_first hp hk hran ⟨rfl, fun _ _ => rfl, fun _ hk _ => hk⟩, by simp [hk1]⟩
  · rw [hnone] at hK
    cases hK

/-- In every run without lost notifications in which no client with CLIENT_CLOSE_ASAP starts a jump
and no worker reads `c->curidx` of a freed client: bytes announce what is popped, no client is lost
or duplicated, and, if the run is fair and clients can be registered, every command that visits all
workers runs one step on each of them in turn and leaves its client linked to the last one. -/
theorem jump_exactly_once (hn : 0 < n) (r : ServerRun n ncmd) (hl : r.Meets fun _ a => Lossless a)
    (hc : r.Meets Careful) :
    r.Meets Announced ∧ (∀ m, Accounted n (r.state m)) ∧
    (Fair r → (r.Meets fun _ a => Registered a) →
      ∀ m i c q, Issues r m i c q → (kind? q).isSome = true →
        ∃ m' > m, ∃ rep, (r.state m').hist c = (r.state m).hist c ++ block n i q rep ∧
          LinkedOnly (r.state m') c ((i + n - 1) % n)) := by
  have hgood := good_of_run hn r hl hc
  refine ⟨fun m a _ => (hgood m).announced a, fun m => (hgood m).accounted, ?_⟩
  intro hfair hreg m i c q hi hK
  obtain ⟨k₀, K, P, s₀, s₁, hv, hne⟩ := hi.visit (hgood m) hK
  -- with one worker the first visit is the last one
  have hend : ∃ m' > m, ∃ rep, (r.state m').hist c = (r.state m).hist c ++ block n i q rep ∧
      (r.state m').client c ≠ none := by
    rcases Nat.lt_or_eq_of_le (Nat.succ_le_of_lt hn) with h1 | h1
    · obtain ⟨m', hm', hend⟩ :=
        visit_ends ⟨hgood, hl, hc, hfair⟩ hreg (t := 0) h1 (hv.goes_on h1).1
      exact ⟨m', by omega, hend⟩
    · exact ⟨m + 1, Nat.lt_succ_self m, _, hv.done h1, hne⟩
  obtain ⟨m', hm', rep, hh, hne'⟩ := hend
  exact ⟨m', hm', rep, hh, (hgood m').linkedOnly hn hne' hh⟩

theorem fair_ofList {as : List Act} (h : (exec (step n) (init ncmd) as).isSome = true)
    (hm : ((exec (step n) (init ncmd) as).get h).master = .idle)
    (hw : ∀ i < n, ((exec (step n) (init ncmd) as).get h).worker i = .idle ∧
      ((exec (step n) (init ncmd) as).get h).toMaster i = [] ∧
      ((exec (step n) (init ncmd) as).get h).toWorker i = []) :
    Fair (Run.ofList as h : ServerRun n ncmd) :=
  ⟨Run.ofList_fairTo h (by simp [hm]), fun i hi => Run.ofList_fairTo h (by simp [(hw i hi).1]),
    fun w hi => Run.ofList_fairTo h (by simp [(hw w hi).2.1]),
    fun i hi => Run.ofList_fairTo h (by simp [(hw i hi).2.2])⟩

def jumpHome : List Act :=
  connects 0 5 ++ [.readQuery 0 0 (.data [clientListRequest]), .input 0 true, .dispatch 0 true,
    .readCuridx 0 0, .write 0 true, .masterRead 0 true, .masterPop, .masterPush, .masterWrite true,
    .read 1 true, .pop 1 .failed true, .input 1 true]

theorem exec_jumpHome : (exec (step 2) (init 0) jumpHome).isSome = true := by decide

theorem jump_exactly_once_jumpHome : ∃ r : ServerRun 2 0, Issues r 5 0 0 clientListRequest ∧
    ∃ m' > 5, ∃ rep, (r.state m').hist 0 = block 2 0 clientListRequest rep ∧
      LinkedOnly (r.state m') 0 1 := by
  let r : ServerRun 2 0 := .ofList jumpHome exec_jumpHome
  have hissue : Issues r 5 0 0 clientListRequest :=
    ⟨true, false, { newClient 1 0 5 [] with querybuf := [clientListRequest] }, [], rfl, by decide,
      by decide, by decide, by decide⟩
  have hhist : (r.state 5).hist 0 = [] := by decide
  obtain ⟨-, -, hlive⟩ :=
    jump_exactly_once (by decide) r (Run.ofList_meets exec_jumpHome (by decide))
    (Run.ofList_meets exec_jumpHome (by decide))
  obtain ⟨m', hm', rep, hh, hlinked⟩ := hlive (fair_ofList exec_jumpHome (by decide) (by decide))
    (Run.ofList_meets exec_jumpHome (by decide)) 5 0 0 clientListRequest hissue (by decide)
  exact ⟨r, hissue, m', hm', rep, by rw [hh, hhist, nil_append], hlinked⟩

/-- Clients 0 and 1 jump at the same time.  The byte of client 1 brings client 0 home, its
connection is closed, and only then the worker that pushed it reads `c->curidx`: the byte for client
1 goes nowhere. -/
def strandOther : List Act :=
  connects 0 5 ++ connects 1 6 ++
    [.readQuery 0 0 (.data [clientListRequest]), .input 0 true, .dispatch 0 true,
    .readQuery 1 1 (.data [clientListRequest]), .input 1 true, .dispatch 1 true, .readCuridx 1 0,
    .write 1 true, .masterRead 1 true, .masterPop, .masterPush, .masterWrite true, .read 1 true,
    .pop 1 .failed true, .input 1 true, .readQuery 1 0 .closed, .readCuridx 0 7, .write 0 true]

theorem exec_strandOther : (exec (step 2) (init 0) strandOther).isSome = true := by decide

/-- On lossless socket pairs and in a fair run, the CLIENT LIST of client 1 never ends. -/
theorem client_stranded : ∃ r : ServerRun 2 0,
    (r.Meets fun _ a => Lossless a) ∧ r.Meets Tidy ∧ (r.Meets fun _ a => Registered a) ∧ Fair r ∧
    Issues r 12 1 1 clientListRequest ∧ (kind? clientListRequest).isSome = true ∧
    ∀ m rep, (r.state m).hist 1 ≠ (r.state 12).hist 1 ++ block 2 1 clientListRequest rep := by
  let r : ServerRun 2 0 := .ofList strandOther exec_strandOther
  refine ⟨r, Run.ofList_meets exec_strandOther (by decide),
    Run.ofList_meets exec_strandOther (by decide),
    Run.ofList_meets exec_strandOther (by decide),
      fair_ofList exec_strandOther (by decide) (by decide),
    ⟨true, false, { newClient 1 1 6 [] with querybuf := [clientListRequest] }, [], rfl, by decide,
      by decide, by decide, by decide⟩, by decide, fun m rep he => ?_⟩
  -- the history of client 1 ends after one visit
  have hfinal : ((r.state (max m 26)).hist 1).length = 2 := by
    rw [Run.ofList_state exec_strandOther (le_max_right m 26)]
    decide
  have hle := (hist_grows r 1 (le_max_left m 26)).length_le
  rw [hfinal, he] at hle
  simp [block, runs] at hle

end Vire.Jump
