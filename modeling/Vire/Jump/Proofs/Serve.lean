import Mathlib.Logic.Relation
import Vire.Jump.Proofs.Basic

/-!
# Serving a client

Whatever a worker does for a client of its own, it does in a few kinds of small updates.  `Serve`
lists them, and `Inv.serves` says once that they keep the invariant.
-/

namespace Vire.Jump

open Function List

variable {n : ℕ} {pl pl' : Cid → Place} {s s' : Sys} {i : ℕ} {c : Cid} {k : Client}
  {f : Client → Client} {g : EventLoop → EventLoop} {fld : EventLoop → List Cid}
    {flag : Client → Bool}

/-- What never changes in a client, and what its event loop knows about it. -/
structure Core where
  id : ℕ
  sd : ℤ
  peerid : Sds
  type : ClientType
  vel : Option ℕ
  closeAsap : Bool
  unblocked : Bool

def Client.core (k : Client) : Core :=
  ⟨k.id, k.sd, k.peerid, k.type, k.vel, k.closeAsap, k.unblocked⟩

def markPending (s : Sys) (i : ℕ) (c : Cid) : Sys :=
  (s.setClient c fun k => { k with pendingWrite := true }).setLoop i fun l =>
    { l with clientsPendingWrite := c :: l.clientsPendingWrite }

/-- The small updates of worker `i` while it serves client `c`. -/
inductive Serve (i : ℕ) (c : Cid) : Sys → Sys → Prop
  | write {s : Sys} (f : Client → Client) (hcore : ∀ k, (f k).core = k.core)
      (hpend : ∀ k, (f k).pendingWrite = k.pendingWrite) : Serve i c s (s.setClient c f)
  | mark {s : Sys} {k : Client} (hk : s.client c = some k) (hp : k.pendingWrite = false) :
      Serve i c s (markPending s i c)
  | log {s : Sys} (es : List Event) : Serve i c s (s.log c es)
  | free {s : Sys} {x : Cid} (hx : x ∈ (s.loop i).clients) (hne : x ≠ c) :
      Serve i c s (freeClient s i x)
  | charge {s : Sys} (r : Request) : Serve i c s (chargeStats s i r)

abbrev Serves (i : ℕ) (c : Cid) : Sys → Sys → Prop := Relation.ReflTransGen (Serve i c)

/-- The places of a client that no queue and no other thread knows. -/
def Place.home : Place → Bool
  | .gone | .rest _ | .busy _ | .visiting _ => true
  | _ => false

variable {p : Place}

theorem Placed.of_home_fresh (h : Placed n pl s) (hnet : s'.net = s.net)
    (hclient : ∀ x, x ≠ c → s'.client x = s.client x) (hc : (pl c).home = true) (hp : p.home = true)
    (hfresh : ∀ x, s'.nextCid ≤ x → update pl c p x = .gone ∧ s'.hist x = [])
    (hinput : ∀ i b, s.worker i = .input c b → p = .rest i ∨ p = .busy i)
    (hl : ∀ i, Moves c (s.loop i).clients (s'.loop i).clients
      (p = .rest i ∨ p = .leaving i ∨ p = .busy i)) : Placed n (update pl c p) s' := by
  obtain ⟨hcb, hcs, -, -, -, hm, hw⟩ := Net.mk.inj hnet
  -- a place that is not at home is the place of another client, and unchanged
  have hcne : ∀ q, Place.home q = false → pl c ≠ q := by
    rintro q hq rfl
    exact Bool.noConfusion (hc.symm.trans hq)
  have key : ∀ x q, Place.home q = false → (update pl c p x = q ↔ pl x = q) := by
    intro x q hq
    refine update_eq_iff ?_ (hcne q hq) x
    rintro rfl
    exact Bool.noConfusion (hp.symm.trans hq)
  refine ⟨fun i => (hl i).nodup, h.clients_moved hl, hcb ▸ h.back_nodup, fun x => ?_,
    fun su hsu => ?_,
    hcs ▸ h.queued_nodup, fun j x => ?_, hcs ▸ h.queued_num, fun x => ?_, fun idx su hsu => ?_,
      fun j x => ?_,
    fun j x b hin => ?_, hfresh⟩
  · rw [hcb, h.back_iff, key x .back rfl]
  · exact h.back_num_of hclient (hcne .back rfl) (hcb ▸ hsu)
  · rw [hcs, h.queued_iff, key x (.queued j) rfl]
  · rw [hm, key x .held rfl, h.held_iff]
  · exact h.held_num_of hclient (hcne .held rfl) (hm ▸ hsu)
  · rw [hw, h.dispatch_iff, key x (.leaving j) rfl, key x (.out j) rfl]
  · rw [hw] at hin
    by_cases hx : x = c
    · subst hx
      rw [update_self]
      exact hinput j b hin
    · rw [update_of_ne hx]
      exact h.input j x b hin

theorem Placed.of_home (h : Placed n pl s) (hnet : s'.net = s.net)
    (hcid : s'.nextCid = s.nextCid) (hclient : ∀ x, x ≠ c → s'.client x = s.client x)
    (hhist : ∀ x, x ≠ c → s'.hist x = s.hist x) (hc : (pl c).home = true) (hp : p.home = true)
    (hold : pl c ≠ .gone) (hinput : ∀ i b, s.worker i = .input c b → p = .rest i ∨ p = .busy i)
    (hl : ∀ i, Moves c (s.loop i).clients (s'.loop i).clients
      (p = .rest i ∨ p = .leaving i ∨ p = .busy i)) : Placed n (update pl c p) s' := by
  refine h.of_home_fresh hnet hclient hc hp (fun x hx => ?_) hinput hl
  rw [hcid] at hx
  have hxc : x ≠ c := by
    rintro rfl
    exact hold (h.fresh x hx).1
  rw [update_of_ne hxc, hhist x hxc]
  exact h.fresh x hx

theorem Placed.of_home_same (h : Placed n pl s) (hnet : s'.net = s.net)
    (hcid : s'.nextCid = s.nextCid) (hclient : ∀ x, x ≠ c → s'.client x = s.client x)
    (hhist : ∀ x, x ≠ c → s'.hist x = s.hist x) (hc : (pl c).home = true) (hold : pl c ≠ .gone)
    (hl : ∀ i, (s'.loop i).clients = (s.loop i).clients) : Placed n pl s' := by
  rw [← update_eq_self c pl]
  refine h.of_home hnet hcid hclient hhist hc hc hold (fun j b => h.input j c b) fun j => ?_
  rw [hl]
  exact .keep (h.clients_nodup j) (h.clients_iff j c)

theorem Inv.rest (h : Inv n pl s) (hc : pl c = .rest i) :
    i < n ∧ ∃ k, s.client c = some k ∧ Rest n i k (s.hist c) := by
  have := h.phase c
  rwa [hc] at this

theorem Inv.move (h : Inv n pl s) (hne : ∀ x, x ≠ c → s'.client x = s.client x)
    (hhist : s'.hist = s.hist) (hphase : Phase n p (s'.client c) (s'.hist c)) (hlists : Lists s')
    (hplaced : Placed n (update pl c p) s') : Inv n (update pl c p) s' := by
  refine ⟨fun x => ?_, hlists, hplaced⟩
  by_cases hx : x = c
  · subst hx
    rw [update_self]
    exact hphase
  · rw [update_of_ne hx, hne x hx, hhist]
    exact h.phase x

theorem setLoop_field {α : Type*} (s : Sys) (i : ℕ) (g : EventLoop → α)
    {f : EventLoop → EventLoop} (hf : g (f (s.loop i)) = g (s.loop i)) (j : ℕ) :
    g ((s.setLoop i f).loop j) = g (s.loop j) := by
  by_cases hj : j = i
  · subst hj
    rw [s.setLoop_self, hf]
  · rw [s.setLoop_ne i f hj]

theorem FlagList.set (h : FlagList s.client (fun j => fld (s.loop j)) flag)
    (hk : s.client c = some k) (hvel : (f k).vel = k.vel) (hflag : flag (f k) = flag k)
    (hfld : fld (g (s.loop i)) = fld (s.loop i)) :
    FlagList ((s.setClient c f).setLoop i g).client
      (fun j => fld (((s.setClient c f).setLoop i g).loop j)) flag :=
  h.keep (fun _ hx => s.setClient_ne c f hx) hk (by simp [hk]) hvel hflag
    (setLoop_field (s.setClient c f) i fld hfld)

def Serving (i : ℕ) (p : Place) : Prop := p = .busy i ∨ p = .visiting i

theorem Serving.home (h : Serving i p) : p.home = true := by
  rcases h with rfl | rfl <;> rfl

theorem Serving.phase (h : Serving i p) {k? : Option Client} {e : List Event} :
    Phase n p k? e ↔ i < n ∧ ∃ k, k? = some k ∧ k.vel = some i := by
  rcases h with rfl | rfl <;> rfl

theorem Serving.ne_gone (h : Serving i p) : p ≠ .gone := by
  rcases h with rfl | rfl <;> exact Place.noConfusion

section

variable (h : Inv n pl s)

include h

section

variable (hc : Serving i (pl c))

include hc

theorem Inv.of_served (hnet : s'.net = s.net) (hcid : s'.nextCid = s.nextCid)
    (hclient : ∀ x, x ≠ c → s'.client x = s.client x) (hhist : ∀ x, x ≠ c → s'.hist x = s.hist x)
    (hself : ∃ k, s'.client c = some k ∧ k.vel = some i)
    (hclients : ∀ j, (s'.loop j).clients = (s.loop j).clients) (hlists : Lists s') :
    Inv n pl s' where
  phase x := by
    by_cases hx : x = c
    · subst hx
      exact hc.phase.mpr ⟨(hc.phase.mp (h.phase x)).1, hself⟩
    · rw [hclient x hx, hhist x hx]
      exact h.phase x
  lists := hlists
  placed := h.placed.of_home_same hnet hcid hclient hhist hc.home hc.ne_gone hclients

theorem Inv.serve_write (f : Client → Client)
    (hcore : ∀ k, (f k).core = k.core) (hpend : ∀ k, (f k).pendingWrite = k.pendingWrite) :
    Inv n pl (s.setClient c f) := by
  obtain ⟨-, k, hk, hvel⟩ := hc.phase.mp (h.phase c)
  have hv : (f k).vel = k.vel := congrArg Core.vel (hcore k)
  rw [← Sys.setLoop_id (s.setClient c f) i]
  exact h.of_served hc rfl rfl (fun x hx => s.setClient_ne c f hx) (fun _ _ => rfl)
    ⟨f k, by simp [hk], hv.trans hvel⟩ (setLoop_field _ i _ rfl)
    ⟨h.lists.pendingWrite.set hk hv (hpend k) rfl,
      h.lists.toClose.set hk hv (congrArg Core.closeAsap (hcore k)) rfl,
      h.lists.unblocked.set hk hv (congrArg Core.unblocked (hcore k)) rfl⟩

theorem Inv.serve_mark {k : Client}
    (hk : s.client c = some k) (hp : k.pendingWrite = false) : Inv n pl (markPending s i c) := by
  obtain ⟨-, k', hk', hvel⟩ := hc.phase.mp (h.phase c)
  rw [hk] at hk'
  cases hk'
  have hne : ∀ x, x ≠ c → (markPending s i c).client x = s.client x :=
    fun x hx => s.setClient_ne c _ hx
  have hself : (markPending s i c).client c = some { k with pendingWrite := true } := by
    simp [markPending, hk]
  refine h.of_served hc rfl rfl hne (fun _ _ => rfl) ⟨_, hself, hvel⟩
    (setLoop_field _ i EventLoop.clients rfl)
    ⟨?_, h.lists.toClose.set hk rfl rfl rfl, h.lists.unblocked.set hk rfl rfl rfl⟩
  refine h.lists.pendingWrite.insert hne hk hp hself hvel rfl (.inl ?_) fun j hj => ?_
  · simp [markPending]
  · simp [markPending, Sys.setLoop_ne _ _ _ hj]

theorem Inv.serve_log (es : List Event) :
    Inv n pl (s.log c es) :=
  h.of_served hc rfl rfl (fun _ _ => rfl) (fun _ hx => s.log_ne c es hx)
    (hc.phase.mp (h.phase c)).2 (fun _ => rfl) { h.lists with }

theorem Inv.serve_charge (r : Request) :
    Inv n pl (chargeStats s i r) := by
  obtain ⟨-, k, hk, hvel⟩ := hc.phase.mp (h.phase c)
  rw [chargeStats, ← s.setClient_id c]
  exact h.of_served hc rfl rfl (fun _ hx => s.setClient_ne c _ hx) (fun _ _ => rfl)
    ⟨k, by simp [hk], hvel⟩ (setLoop_field _ i EventLoop.clients rfl)
    ⟨h.lists.pendingWrite.set hk rfl rfl rfl, h.lists.toClose.set hk rfl rfl rfl,
      h.lists.unblocked.set hk rfl rfl rfl⟩

end

end

variable {x : Cid}

theorem freeClient_ne {y : Cid} (h : y ≠ x) : (freeClient s i x).client y = s.client y := by
  simp only [freeClient]
  split
  · rfl
  · exact update_of_ne h ..

theorem freeClient_self (s : Sys) (i : ℕ) (x : Cid) : (freeClient s i x).client x = none := by
  simp only [freeClient]
  split
  · assumption
  · exact update_self ..

theorem freeClient_hist (s : Sys) (i : ℕ) (x : Cid) : (freeClient s i x).hist = s.hist := by
  simp only [freeClient]
  split <;> rfl

theorem freeClient_net (s : Sys) (i : ℕ) (x : Cid) : (freeClient s i x).net = s.net := by
  simp only [freeClient]
  split <;> rfl

theorem freeClient_nextCid (s : Sys) (i : ℕ) (x : Cid) :
    (freeClient s i x).nextCid = s.nextCid := by
  simp only [freeClient]
  split <;> rfl

theorem freeClient_clients {k : Client} (hk : s.client x = some k)
    (hx : ∀ j, x ∈ (s.loop j).clients → j = i) (j : ℕ) :
    ((freeClient s i x).loop j).clients = (s.loop j).clients.erase x := by
  by_cases hj : j = i
  · subst hj
    simp [freeClient, hk]
  · simp [freeClient, hk, Sys.setLoop_ne _ _ _ hj, erase_of_not_mem fun hc => hj (hx j hc)]

theorem Lists.free (h : Lists s) {k : Client} (hk : s.client x = some k) (hvel : k.vel = some i) :
    Lists (freeClient s i x) := by
  have hne : ∀ y, y ≠ x → (freeClient s i x).client y = s.client y := fun y hy => freeClient_ne hy
  have hnone : ∀ flag : Client → Bool, ∀ k', (freeClient s i x).client x = some k' →
      flag k' = false := by
    intro flag k' hk'
    rw [freeClient_self] at hk'
    cases hk'
  have hloop : ∀ j, j ≠ i → (freeClient s i x).loop j = s.loop j := by
    intro j hj
    simp [freeClient, hk, Sys.setLoop_ne _ _ _ hj]
  refine ⟨?_, ?_, ?_⟩
  · exact h.pendingWrite.erase hne hk hvel (hnone _) (by simp [freeClient, hk]) fun j hj => by
      rw [hloop j hj]
  · exact h.toClose.erase hne hk hvel (hnone _) (by simp [freeClient, hk]) fun j hj => by
      rw [hloop j hj]
  · exact h.unblocked.erase hne hk hvel (hnone _) (by simp [freeClient, hk]) fun j hj => by
      rw [hloop j hj]

theorem Inv.free (h : Inv n pl s) (hx : pl x = .rest i) (hidle : ∀ j b, s.worker j ≠ .input x b) :
    Inv n (update pl x .gone) (freeClient s i x) := by
  obtain ⟨hi, k, hk, hrest⟩ := h.rest hx
  have hloop : ∀ j, x ∈ (s.loop j).clients → j = i := by
    intro j hc
    rcases (h.placed.clients_iff j x).mp hc with hc | hc | hc <;> rw [hx] at hc
    · exact (Place.rest.inj hc).symm
    · exact Place.noConfusion hc
    · exact Place.noConfusion hc
  have hne : ∀ y, y ≠ x → (freeClient s i x).client y = s.client y := fun y hy => freeClient_ne hy
  refine h.move hne (freeClient_hist s i x) ⟨freeClient_self s i x, i, ?_⟩
    (h.lists.free hk hrest.vel) (h.placed.of_home (freeClient_net s i x) (freeClient_nextCid s i x)
      hne (fun y _ => by rw [freeClient_hist]) (by rw [hx]; rfl) rfl (by simp [hx])
      (fun j b hin => absurd hin (hidle j b)) fun j => ?_)
  · rw [freeClient_hist]
    exact hrest.hist
  · rw [freeClient_clients hk hloop]
    exact .erase (h.placed.clients_nodup j) (by simp)

structure Handling (n : ℕ) (pl : Cid → Place) (s : Sys) (i : ℕ) (c : Cid) : Prop where
  inv : Inv n pl s
  place : Serving i (pl c)
  only : ∀ x, pl x = .busy i → x = c
  input : ∀ x b, s.worker i = .input x b → x = c
  dispatch : ∀ x, s.worker i ≠ .dispatch x

/-- Worker `i` freed some of its clients other than `c`. -/
def Freed (i : ℕ) (c : Cid) (pl pl' : Cid → Place) : Prop :=
  ∀ x, pl' x = pl x ∨ (x ≠ c ∧ pl x = .rest i ∧ pl' x = .gone)

theorem Freed.self (h : Freed i c pl pl') : pl' c = pl c :=
  (h c).resolve_right fun hx => hx.1 rfl

theorem Freed.trans {pl'' : Cid → Place} (h : Freed i c pl pl') (h' : Freed i c pl' pl'') :
    Freed i c pl pl'' := by
  intro x
  rcases h' x with hx' | ⟨hne, hr, hg⟩
  · rw [hx']
    exact h x
  · rcases h x with hx | ⟨-, -, hx⟩
    · exact .inr ⟨hne, hx ▸ hr, hg⟩
    · rw [hx] at hr
      exact Place.noConfusion hr

theorem Serve.net (h : Serve i c s s') : s'.net = s.net := by
  cases h with
  | free hx hne => exact freeClient_net ..
  | _ => rfl

theorem Handling.rest_of_mem (h : Handling n pl s i c) (hx : x ∈ (s.loop i).clients)
    (hne : x ≠ c) : pl x = .rest i := by
  rcases (h.inv.placed.clients_iff i x).mp hx with hx | hx | hx
  · exact hx
  · exact absurd ((h.inv.placed.dispatch_iff i x).mpr (.inl hx)) (h.dispatch x)
  · exact absurd (h.only x hx) hne

theorem Handling.serve (h : Handling n pl s i c) (hs : Serve i c s s') :
    ∃ pl', Handling n pl' s' i c ∧ Freed i c pl pl' := by
  have hw : s'.worker = s.worker := congrArg Net.worker hs.net
  -- all but the freeing of another client leave the places as they are
  have same : Inv n pl s' → ∃ pl', Handling n pl' s' i c ∧ Freed i c pl pl' := fun hinv =>
    ⟨pl, ⟨hinv, h.place, h.only, fun x b => hw ▸ h.input x b, fun x => hw ▸ h.dispatch x⟩,
      fun _ => .inl rfl⟩
  cases hs with
  | write f hcore hpend => exact same (h.inv.serve_write h.place f hcore hpend)
  | mark hk hp => exact same (h.inv.serve_mark h.place hk hp)
  | log es => exact same (h.inv.serve_log h.place es)
  | charge r => exact same (h.inv.serve_charge h.place r)
  | @free x hx hne =>
    have hrest := h.rest_of_mem hx hne
    have hidle : ∀ j b, s.worker j ≠ .input x b := by
      intro j b hin
      have hj : j = i := by
        rcases h.inv.placed.input j x b hin with hp | hp <;> rw [hrest] at hp
        · exact (Place.rest.inj hp).symm
        · exact Place.noConfusion hp
      subst hj
      exact hne (h.input x b hin)
    refine ⟨_, ⟨h.inv.free hrest hidle, ?_, fun y hy => ?_, fun y b => hw ▸ h.input y b,
      fun y => hw ▸ h.dispatch y⟩, fun y => ?_⟩
    · rw [update_of_ne (Ne.symm hne)]
      exact h.place
    · by_cases hyx : y = x
      · subst hyx
        rw [update_self] at hy
        exact Place.noConfusion hy
      · rw [update_of_ne hyx] at hy
        exact h.only y hy
    · by_cases hyx : y = x
      · subst hyx
        exact .inr ⟨hne, hrest, update_self ..⟩
      · exact .inl (update_of_ne hyx ..)

theorem Handling.serves (h : Handling n pl s i c) (hs : Serves i c s s') :
    ∃ pl', Handling n pl' s' i c ∧ Freed i c pl pl' := by
  induction hs with
  | refl => exact ⟨pl, h, fun _ => .inl rfl⟩
  | tail _ hstep ih =>
    obtain ⟨pl1, h1, hf1⟩ := ih
    obtain ⟨pl2, h2, hf2⟩ := h1.serve hstep
    exact ⟨pl2, h2, hf1.trans hf2⟩

theorem Serves.net (h : Serves i c s s') : s'.net = s.net := by
  induction h with
  | refl => rfl
  | tail _ hstep ih => exact hstep.net.trans ih

end Vire.Jump
