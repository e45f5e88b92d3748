import Vire.Jump.Proofs.Serve

/-!
# What a command does to its client

In a request that visits all workers `proc` runs one step, and the client either goes on to the next
worker or has its reply; otherwise the client stays as it was but for its replies.  All of it is a
run of small updates in the sense of `Serves`.
-/

namespace Vire.Jump

open List

variable {n : ℕ} {s s' : Sys} {i : ℕ} {c : Cid} {k : Client} {r : Request}

theorem addReply_eq (hk : s.client c = some k) (hsd : 0 < k.sd) (hopen : k.closeAfterReply = false)
    (rep : Reply) :
    ∃ s1, (s1 = s ∨ s1 = markPending s i c ∧ k.pendingWrite = false) ∧
      addReply s i c rep =
        (s1.setClient c fun k => { k with reply := k.reply ++ [rep] }).log c [.reply rep] := by
  by_cases hp : (!clientHasPendingReplies k && !k.pendingWrite) = true
  · refine ⟨markPending s i c, .inr ⟨rfl, by simp_all⟩, ?_⟩
    have hpre : prepareClientToWrite s i c = (markPending s i c, true) := by
      simp only [prepareClientToWrite, hk, if_neg (not_le.mpr hsd), if_pos hp]
      rfl
    have hk' : (markPending s i c).client c = some { k with pendingWrite := true } := by
      simp [markPending, hk]
    simp [addReply, hpre, hk', hopen]
  · refine ⟨s, .inl rfl, ?_⟩
    have hpre : prepareClientToWrite s i c = (s, true) := by
      simp only [prepareClientToWrite, hk, if_neg (not_le.mpr hsd), if_neg hp]
    simp [addReply, hpre, hk, hopen]

theorem addReply_client (hk : s.client c = some k) (hsd : 0 < k.sd)
    (hopen : k.closeAfterReply = false) (rep : Reply) :
    ∃ p, (addReply s i c rep).client c =
      some { k with reply := k.reply ++ [rep], pendingWrite := p } := by
  obtain ⟨s1, rfl | ⟨rfl, -⟩, heq⟩ := addReply_eq (i := i) hk hsd hopen rep
  · exact ⟨k.pendingWrite, by simp [heq, hk]⟩
  · exact ⟨true, by simp [heq, markPending, hk]⟩

theorem addReply_hist (hk : s.client c = some k) (hsd : 0 < k.sd)
    (hopen : k.closeAfterReply = false) (rep : Reply) :
    (addReply s i c rep).hist c = s.hist c ++ [.reply rep] := by
  obtain ⟨s1, rfl | ⟨rfl, -⟩, heq⟩ := addReply_eq (i := i) hk hsd hopen rep
  · simp [heq]
  · simp [heq, markPending]

theorem addReply_ne {x : Cid} (hx : x ≠ c) (s : Sys) (i : ℕ) (rep : Reply) :
    (addReply s i c rep).client x = s.client x := by
  have hpre : (prepareClientToWrite s i c).1.client x = s.client x := by
    unfold prepareClientToWrite
    split
    · rfl
    · split_ifs
      · rfl
      · exact Sys.setClient_ne _ _ _ hx
      · rfl
  unfold addReply
  split
  · next heq => rw [heq] at hpre; exact hpre
  · next heq =>
    rw [heq] at hpre
    split
    · exact hpre
    · split_ifs
      · exact hpre
      · exact (Sys.setClient_ne _ _ _ hx).trans hpre

theorem addReply_serves (hk : s.client c = some k) (hsd : 0 < k.sd)
    (hopen : k.closeAfterReply = false) (rep : Reply) : Serves i c s (addReply s i c rep) := by
  obtain ⟨s1, hs1, heq⟩ := addReply_eq (i := i) hk hsd hopen rep
  have h1 : Serves i c s s1 := by
    rcases hs1 with rfl | ⟨rfl, hp⟩
    · exact .refl
    · exact .single (.mark hk hp)
  rw [heq]
  refine .tail (.tail h1 ?_) (.log _)
  exact .write _ (fun _ => rfl) fun _ => rfl

theorem SameFilter.refl (ckd : ClientKillData) : SameFilter ckd ckd := ⟨rfl, rfl, rfl, rfl⟩

theorem SameFilter.trans {a b d : ClientKillData} (h : SameFilter a b) (h' : SameFilter b d) :
    SameFilter a d :=
  ⟨h'.addr.trans h.addr, h'.type.trans h.type, h'.id.trans h.id, h'.skipme.trans h.skipme⟩

theorem SameFilter.selects {a b : ClientKillData} (h : SameFilter a b) (k : Client) :
    b.selects k = a.selects k := by
  simp only [ClientKillData.selects, h.addr, h.type, h.id]

def killOne (i : ℕ) (c x : Cid) (acc : Sys × ClientKillData) : Sys × ClientKillData :=
  killLoop i c [x] acc

theorem killLoop_cons (x : Cid) (xs : List Cid) (acc : Sys × ClientKillData) :
    killLoop i c (x :: xs) acc = killLoop i c xs (killOne i c x acc) := rfl

theorem killOne_cases (x : Cid) (s : Sys) (ckd : ClientKillData) :
    ((killOne i c x (s, ckd)).1 = s ∧ (x ≠ c → ckd.closes s c x = false)) ∨
    ((killOne i c x (s, ckd)).1 = freeClient s i x ∧ x ≠ c ∧ ckd.closes s c x = true) := by
  simp only [killOne, killLoop, ClientKillData.closes]
  cases s.client x with
  | none => exact .inl ⟨rfl, fun _ => rfl⟩
  | some k =>
    dsimp only
    split_ifs with hsel hx hskip
    · exact .inl ⟨rfl, fun _ => by simp_all⟩
    · exact .inl ⟨rfl, fun hne => absurd hx hne⟩
    · exact .inl ⟨rfl, fun hne => absurd hx hne⟩
    · exact .inr ⟨rfl, hx, by simp_all⟩

theorem killOne_filter (x : Cid) (s : Sys) (ckd : ClientKillData) :
    SameFilter ckd (killOne i c x (s, ckd)).2 := by
  simp only [killOne, killLoop]
  repeat' split
  all_goals exact ⟨rfl, rfl, rfl, rfl⟩

theorem mem_freeClient_clients {x y : Cid} (h : y ∈ (s.loop i).clients) (hne : y ≠ x) :
    y ∈ ((freeClient s i x).loop i).clients := by
  simp only [freeClient]
  split
  · exact h
  · rw [Sys.setLoop_self]
    exact (mem_erase_of_ne hne).mpr h

theorem killLoop_self (xs : List Cid) (acc : Sys × ClientKillData) :
    (killLoop i c xs acc).1.client c = acc.1.client c ∧
      (killLoop i c xs acc).1.hist = acc.1.hist ∧ SameFilter acc.2 (killLoop i c xs acc).2 := by
  induction xs generalizing acc with
  | nil => exact ⟨rfl, rfl, .refl _⟩
  | cons x xs ih =>
    obtain ⟨s, ckd⟩ := acc
    obtain ⟨hc, hh, hf⟩ := ih (killOne i c x (s, ckd))
    refine ⟨hc.trans ?_, hh.trans ?_, (killOne_filter x s ckd).trans hf⟩
    · rcases killOne_cases (i := i) (c := c) x s ckd with ⟨h, -⟩ | ⟨h, hne, -⟩
      · rw [h]
      · rw [h, freeClient_ne (Ne.symm hne)]
    · rcases killOne_cases (i := i) (c := c) x s ckd with ⟨h, -⟩ | ⟨h, -⟩
      · rw [h]
      · rw [h, freeClient_hist]

theorem killLoop_serves (xs : List Cid) (s : Sys) (ckd : ClientKillData)
    (hxs : ∀ x ∈ xs, x ∈ (s.loop i).clients ∨ s.client x = none) :
    Serves i c s (killLoop i c xs (s, ckd)).1 := by
  induction xs generalizing s ckd with
  | nil => exact .refl
  | cons x xs ih =>
    have hmem := fun y hy => hxs y (mem_cons_of_mem x hy)
    rw [killLoop_cons]
    generalize hacc : killOne i c x (s, ckd) = acc
    obtain ⟨s1, ckd1⟩ := acc
    rcases killOne_cases (i := i) (c := c) x s ckd with ⟨h, -⟩ | ⟨h, hne, -⟩ <;> rw [hacc] at h <;>
      simp only at h <;> subst h
    · exact ih s1 ckd1 hmem
    · rcases hxs x mem_cons_self with hx | hx
      · refine .head (.free hx hne) (ih _ ckd1 fun y hy => ?_)
        by_cases hyx : y = x
        · subst hyx
          exact .inr (freeClient_self s i y)
        · rcases hmem y hy with hy | hy
          · exact .inl (mem_freeClient_clients hy hyx)
          · exact .inr ((freeClient_ne hyx).trans hy)
      · have hfree : freeClient s i x = s := by simp [freeClient, hx]
        rw [hfree]
        exact ih s ckd1 hmem

theorem killOne_client (x y : Cid) (s : Sys) (ckd : ClientKillData) :
    (killOne i c x (s, ckd)).1.client y =
      if y = x ∧ x ≠ c ∧ ckd.closes s c x = true then none else s.client y := by
  rcases killOne_cases (i := i) (c := c) x s ckd with ⟨h, hsel⟩ | ⟨h, hne, hcl⟩
  · rw [h, if_neg]
    rintro ⟨-, hne, hcl⟩
    rw [hsel hne] at hcl
    exact Bool.false_ne_true hcl
  · rw [h]
    by_cases hy : y = x
    · subst hy
      rw [freeClient_self, if_pos ⟨rfl, hne, hcl⟩]
    · rw [freeClient_ne hy, if_neg fun hc => hy hc.1]

theorem killOne_killed (x : Cid) (s : Sys) (ckd : ClientKillData) :
    (killOne i c x (s, ckd)).2.killed = ckd.killed + if ckd.closes s c x = true then 1 else 0 := by
  rcases Option.eq_none_or_eq_some (s.client x) with hk | ⟨k, hk⟩
  · simp [killOne, killLoop, ClientKillData.closes, hk]
  · simp only [killOne, killLoop, ClientKillData.closes, hk]
    split_ifs with hsel hx hskip <;> simp_all

theorem closes_killOne {x y : Cid} (hne : y ≠ x) (s : Sys) (ckd : ClientKillData) :
    (killOne i c x (s, ckd)).2.closes (killOne i c x (s, ckd)).1 c y = ckd.closes s c y := by
  have hf := killOne_filter (i := i) (c := c) x s ckd
  have hy := killOne_client (i := i) (c := c) x y s ckd
  rw [if_neg fun h => hne h.1] at hy
  unfold ClientKillData.closes
  rw [hy]
  split
  · rfl
  · rw [hf.selects, hf.skipme]

theorem killLoop_client {l : List Cid} (hnd : l.Nodup) (acc : Sys × ClientKillData) (y : Cid) :
    (killLoop i c l acc).1.client y =
      if y ∈ l ∧ y ≠ c ∧ acc.2.closes acc.1 c y = true then none else acc.1.client y := by
  induction l generalizing acc with
  | nil => simp [killLoop]
  | cons x l ih =>
    obtain ⟨hx, hnd⟩ := nodup_cons.mp hnd
    obtain ⟨s, ckd⟩ := acc
    rw [killLoop_cons, ih hnd, killOne_client]
    by_cases hy : y = x
    · subst hy
      simp [hx]
    · simp [hy, closes_killOne hy]

theorem killLoop_killed {l : List Cid} (hnd : l.Nodup) (acc : Sys × ClientKillData) :
    (killLoop i c l acc).2.killed =
      acc.2.killed + (l.filter (acc.2.closes acc.1 c)).length := by
  induction l generalizing acc with
  | nil => simp [killLoop]
  | cons x l ih =>
    obtain ⟨hx, hnd⟩ := nodup_cons.mp hnd
    obtain ⟨s, ckd⟩ := acc
    have htail : l.filter ((killOne i c x (s, ckd)).2.closes (killOne i c x (s, ckd)).1 c) =
        l.filter (ckd.closes s c) :=
      filter_congr fun y hy => closes_killOne (ne_of_mem_of_not_mem hy hx) s ckd
    rw [killLoop_cons, ih hnd, killOne_killed, htail, filter_cons]
    split_ifs <;> simp [Nat.add_assoc, Nat.add_comm]

/-- A client that is about to run a step of the request `r` of kind `K` on worker `i`. -/
structure Ready (n i : ℕ) (k : Client) (r : Request) (K : Kind) : Prop where
  cmd : k.cmd = some r
  kind : kind? r = some K
  curidx : k.curidx = i
  sd : 0 < k.sd
  notClosing : k.closeAfterReply = false
  steps : k.steps < n
  cache : 1 ≤ k.steps → K.Caches k.cache

structure Replied (k k' : Client) : Prop where
  core : k'.core = k.core
  curidx : k'.curidx = k.curidx
  steps : k'.steps = 0
  jump : k'.jump = false
  cache : k'.cache = .null

/-- The effect of one step that has collected `P`: the client takes it on to the next worker, or is
done and has its reply. -/
def Stepped (n i : ℕ) (k : Client) (r : Request) (P : Cache) (h : List Event)
    (k'? : Option Client) (h' : List Event) : Prop :=
  if k.steps + 1 < n then k'? = some (jumpOn n P k) ∧ h' = h ++ stepEvents i k r
  else ∃ k', k'? = some k' ∧ Replied k k' ∧
    h' = h ++ stepEvents i k r ++ [.reply (P.answer r)]

theorem Stepped.hist_eq {k : Client} {r : Request} {P : Cache} {h h' : List Event}
    {k'? : Option Client} (hst : Stepped n i k r P h k'? h') :
    ∃ l, h' = h ++ (stepEvents i k r ++ l) := by
  unfold Stepped at hst
  split_ifs at hst
  · exact ⟨[], by rw [hst.2, append_nil]⟩
  · obtain ⟨-, -, -, he⟩ := hst
    exact ⟨_, by rw [he, append_assoc]⟩

theorem addReply_setClient (hk : s.client c = some k) (hsd : 0 < k.sd)
    (hopen : k.closeAfterReply = false) (rep : Reply) (f : Client → Client)
    (hcore : ∀ k, (f k).core = k.core) (hpend : ∀ k, (f k).pendingWrite = k.pendingWrite) :
    Serves i c s ((addReply s i c rep).setClient c f) ∧
    (∃ p, ((addReply s i c rep).setClient c f).client c =
      some (f { k with reply := k.reply ++ [rep], pendingWrite := p })) ∧
    ((addReply s i c rep).setClient c f).hist c = s.hist c ++ [.reply rep] := by
  obtain ⟨p, hp⟩ := addReply_client (i := i) hk hsd hopen rep
  refine ⟨(addReply_serves hk hsd hopen rep).tail (.write f hcore hpend), ⟨p, ?_⟩, ?_⟩
  · simp [hp]
  · rw [Sys.setClient_hist, addReply_hist hk hsd hopen]

section Steps

theorem lastStep_iff : k.steps ≥ n - 1 ↔ ¬ k.steps + 1 < n := by
  omega

theorem clientList_spec (hk : s.client c = some k) (hr : Ready n i k r .list) :
    Serves i c s (clientList n s i c k r) ∧
      Stepped n i k r (.list (cachedLines k ++ getAllClientsInfoString s i)) (s.hist c)
        ((clientList n s i c k r).client c) ((clientList n s i c k r).hist c) := by
  have hlog : Serves i c s (s.log c (stepEvents i k r)) := .single (.log _)
  have hk' : (s.log c (stepEvents i k r)).client c = some k := hk
  have hinfo : getAllClientsInfoString (s.log c (stepEvents i k r)) i =
    getAllClientsInfoString s i := rfl
  simp only [clientList, Stepped, lastStep_iff, hinfo]
  generalize cachedLines k ++ _ = str
  by_cases hn : k.steps + 1 < n
  · simp only [hn, not_true, if_false, if_true]
    refine ⟨.tail hlog (.write _ (fun _ => rfl) fun _ => rfl), ?_, by simp⟩
    rw [Sys.setClient_self, hk']
    rfl
  · simp only [hn, not_false_iff, if_true, if_false]
    obtain ⟨hserve, ⟨p, hp⟩, hh⟩ := addReply_setClient (i := i) hk' hr.sd hr.notClosing
      (.clientList str) jumpDone (fun _ => rfl) fun _ => rfl
    exact ⟨hlog.trans hserve, _, hp, ⟨rfl, rfl, rfl, rfl, rfl⟩, by rw [hh, Sys.log_self]; rfl⟩

theorem killStep_spec {ckd0 : ClientKillData} (ckd : ClientKillData) (hk : s.client c = some k)
    (hr : Ready n i k r (.kill ckd0)) :
    Serves i c s (killStep n s i c k r ckd) ∧ ∃ ckd', SameFilter ckd ckd' ∧
      ((s.loop i).clients.Nodup →
        ckd'.killed = ckd.killed + ((s.loop i).clients.filter (ckd.closes s c)).length) ∧
      Stepped n i k r (.kill ckd') (s.hist c) ((killStep n s i c k r ckd).client c)
        ((killStep n s i c k r ckd).hist c) := by
  set s1 := (s.log c (stepEvents i k r)).setClient c (jumpOn n (.kill ckd)) with hs1
  have h1 : Serves i c s s1 :=
    .tail (.single (.log (stepEvents i k r))) (.write _ (fun _ => rfl) fun _ => rfl)
  have h2 : Serves i c s1 (killLoop i c (s1.loop i).clients (s1, ckd)).1 :=
    killLoop_serves _ s1 ckd fun x hx => .inl hx
  obtain ⟨hself, hhist, hfilter⟩ :=
    killLoop_self (i := i) (c := c) (s1.loop i).clients (s1, ckd)
  have hkilled :=
    fun hnd => killLoop_killed (i := i) (c := c) (l := (s1.loop i).clients) hnd (s1, ckd)
  have hk1 : s1.client c = some (jumpOn n (.kill ckd) k) := by
    rw [hs1, Sys.setClient_self, Sys.log_client, hk]
    rfl
  have hcloses : ckd.closes s1 c = ckd.closes s c := by
    funext x
    unfold ClientKillData.closes
    by_cases hx : x = c
    · subst hx
      rw [hk1, hk]
      rfl
    · rw [hs1, Sys.setClient_ne _ _ _ hx, Sys.log_client]
  simp only [killStep, Stepped, lastStep_iff, ← hs1]
  generalize killLoop i c (s1.loop i).clients (s1, ckd) = acc at *
  obtain ⟨s2, ckd2⟩ := acc
  have hh : s2.hist c = s.hist c ++ stepEvents i k r := by
    rw [show s2.hist = s1.hist from hhist, hs1]
    simp
  have hk2 : s2.client c = some (jumpOn n (.kill ckd) k) := hself.trans hk1
  have hcount : (s.loop i).clients.Nodup →
      ckd2.killed = ckd.killed + ((s.loop i).clients.filter (ckd.closes s c)).length := by
    intro hnd
    rw [← hcloses]
    exact hkilled hnd
  by_cases hn : k.steps + 1 < n
  · simp only [hn, not_true, if_false, if_true]
    refine ⟨.tail (h1.trans h2) (.write _ (fun _ => rfl) fun _ => rfl), ckd2, hfilter, hcount,
      ?_, hh⟩
    rw [Sys.setClient_self, hk2]
    rfl
  · simp only [hn, not_false_iff, if_true, if_false]
    obtain ⟨hserve, ⟨p, hp⟩, hh'⟩ := addReply_setClient (i := i) hk2 hr.sd hr.notClosing
      (killReply r ckd2)
      (fun k => { jumpDone k with closeAfterReply := ckd2.closeThisClient || k.closeAfterReply })
      (fun _ => rfl) fun _ => rfl
    exact ⟨(h1.trans h2).trans hserve, ckd2, hfilter, hcount, _, hp, ⟨rfl, rfl, rfl, rfl, rfl⟩,
      by rw [hh', hh]; rfl⟩

section

variable (hk : s.client c = some k)

include hk

theorem commandStats_spec (hr : Ready n i k r .stats) :
    Serves i c s (commandStats n s i c k r) ∧ ∃ all,
      Stepped n i k r (.stats all) (s.hist c) ((commandStats n s i c k r).client c)
        ((commandStats n s i c k r).hist c) := by
  simp only [commandStats, Stepped, lastStep_iff]
  generalize addStats _ _ = all
  set s1 := (s.log c (stepEvents i k r)).setClient c (jumpOn n (.stats all)) with hs1
  have h1 : Serves i c s s1 :=
    .tail (.single (.log (stepEvents i k r))) (.write _ (fun _ => rfl) fun _ => rfl)
  have hk1 : s1.client c = some (jumpOn n (.stats all) k) := by
    rw [hs1, Sys.setClient_self, Sys.log_client, hk]
    rfl
  have hh : s1.hist c = s.hist c ++ stepEvents i k r := by simp [hs1]
  by_cases hn : k.steps + 1 < n
  · simp only [hn, not_true, if_false, if_true]
    exact ⟨h1, all, hk1, hh⟩
  · simp only [hn, not_false_iff, if_true, if_false]
    have h2 : Serves i c s (s1.setClient c jumpDone) :=
      .tail h1 (.write _ (fun _ => rfl) fun _ => rfl)
    have hk2 : (s1.setClient c jumpDone).client c = some (jumpDone (jumpOn n (.stats all) k)) := by
      simp [hk1]
    obtain ⟨p, hp⟩ := addReply_client (i := i) hk2 hr.sd hr.notClosing
      (.stats (all.filter (·.calls ≠ 0)))
    have hh2 := addReply_hist (i := i) hk2 hr.sd hr.notClosing (.stats (all.filter (·.calls ≠ 0)))
    rw [Sys.setClient_hist, hh] at hh2
    exact ⟨h2.trans (addReply_serves hk2 hr.sd hr.notClosing _), all, _, hp,
      ⟨rfl, rfl, rfl, rfl, rfl⟩, hh2⟩

theorem proc_eq {K : Kind} (hr : Ready n i k r K) :
    (K = .list ∧ proc n s i c = clientList n s i c k r) ∨
    (∃ ckd0 ckd, K = .kill ckd0 ∧ SameFilter ckd0 ckd ∧
      (if k.steps = 0 then ckd = ckd0 else k.cache = .kill ckd) ∧
      proc n s i c = killStep n s i c k r ckd) ∨
    (K = .stats ∧ proc n s i c = commandStats n s i c k r) := by
  have hkind := hr.kind
  simp only [proc, hk, hr.cmd]
  simp only [kind?] at hkind
  split at hkind
  · next sub rest hproc hargs =>
    rw [hproc]
    simp only [clientCommand, hargs]
    split_ifs at hkind with hl hkill
    · cases hkind
      exact .inl ⟨rfl, by rw [if_pos hl]⟩
    · rw [if_neg hl, if_pos hkill]
      split at hkind
      · next ckd hparse =>
        cases hkind
        simp only [clientKill, hargs, tail_cons, hparse]
        by_cases h0 : k.steps = 0
        · exact .inr (.inl ⟨ckd, ckd, rfl, .refl ckd, by rw [if_pos h0], by rw [if_pos h0]⟩)
        · have hcache := hr.cache (Nat.one_le_iff_ne_zero.mpr h0)
          cases hc : k.cache with
          | kill ckd1 =>
            rw [hc] at hcache
            exact .inr (.inl ⟨ckd, ckd1, rfl, hcache, by rw [if_neg h0], by rw [if_neg h0]⟩)
          | _ => rw [hc] at hcache; exact hcache.elim
      · cases hkind
  · next sub hproc hargs =>
    rw [hproc]
    simp only [commandCommand, hargs]
    split_ifs at hkind with hst
    cases hkind
    exact .inr (.inr ⟨rfl, by rw [if_pos hst]⟩)
  · cases hkind

theorem proc_step {K : Kind} (hr : Ready n i k r K) :
    Serves i c s (proc n s i c) ∧ ∃ P, K.Caches P ∧ K.Collects s i c k P ∧
      Stepped n i k r P (s.hist c) ((proc n s i c).client c) ((proc n s i c).hist c) := by
  rcases proc_eq hk hr with ⟨rfl, he⟩ | ⟨ckd0, ckd, rfl, hf0, hstart, he⟩ | ⟨rfl, he⟩
  · rw [he]
    exact ⟨(clientList_spec hk hr).1, .list _, trivial, rfl, (clientList_spec hk hr).2⟩
  · rw [he]
    obtain ⟨hserve, ckd', hf, hcount, hst⟩ := killStep_spec ckd hk hr
    exact ⟨hserve, .kill ckd', hf0.trans hf, ⟨ckd, ckd', hstart, rfl, hf, hcount⟩, hst⟩
  · rw [he]
    obtain ⟨hserve, all, hstep⟩ := commandStats_spec hk hr
    exact ⟨hserve, .stats all, trivial, ⟨all, rfl⟩, hstep⟩

theorem proc_closed {ckd0 : ClientKillData} {x : Cid}
    (hr : Ready n i k r (.kill ckd0)) (hnd : (s.loop i).clients.Nodup)
    (hx : x ∈ (s.loop i).clients) (hne : x ≠ c) (hcl : ckd0.closes s c x = true) :
    (proc n s i c).client x = none := by
  rcases proc_eq hk hr with ⟨hK, -⟩ | ⟨_, ckd, hK, hf, -, he⟩ | ⟨hK, -⟩ <;> cases hK
  set s1 := (s.log c (stepEvents i k r)).setClient c (jumpOn n (.kill ckd)) with hs1
  have hsel : ckd.closes s1 c x = true := by
    rw [← hcl]
    unfold ClientKillData.closes
    rw [hs1, Sys.setClient_ne _ _ _ hne, Sys.log_client]
    split
    · rfl
    · rw [hf.selects, hf.skipme]
  have hgone := killLoop_client (i := i) (c := c) (l := (s1.loop i).clients) hnd (s1, ckd) x
  rw [if_pos ⟨hx, hne, hsel⟩] at hgone
  rw [he]
  simp only [killStep, ← hs1]
  -- what follows the loop writes only the client that runs the command
  split_ifs
  · rw [Sys.setClient_ne _ _ _ hne, addReply_ne hne]
    exact hgone
  · rw [Sys.setClient_ne _ _ _ hne]
    exact hgone

end

end Steps

structure Stayed (k k' : Client) : Prop where
  core : k'.core = k.core
  curidx : k'.curidx = k.curidx
  steps : k'.steps = k.steps
  jump : k'.jump = k.jump
  cache : k'.cache = k.cache

def Answered (k : Client) (h : List Event) (k'? : Option Client) (h' : List Event) : Prop :=
  ∃ k', k'? = some k' ∧ Stayed k k' ∧ (h' = h ∨ ∃ rep, h' = h ++ [.reply rep])

theorem addReply_answered (hk : s.client c = some k) (hsd : 0 < k.sd)
    (hopen : k.closeAfterReply = false) (rep : Reply) :
    Serves i c s (addReply s i c rep) ∧
      Answered k (s.hist c) ((addReply s i c rep).client c) ((addReply s i c rep).hist c) := by
  obtain ⟨p, hp⟩ := addReply_client (i := i) hk hsd hopen rep
  exact ⟨addReply_serves hk hsd hopen rep, _, hp, ⟨rfl, rfl, rfl, rfl, rfl⟩,
    .inr ⟨rep, addReply_hist hk hsd hopen rep⟩⟩

theorem proc_other (hk : s.client c = some k) (hcmd : k.cmd = some r) (hkind : kind? r = none)
    (hsteps : k.steps = 0) (hsd : 0 < k.sd) (hopen : k.closeAfterReply = false) :
    Serves i c s (proc n s i c) ∧
      Answered k (s.hist c) ((proc n s i c).client c) ((proc n s i c).hist c) := by
  have hreply := fun rep => addReply_answered (i := i) hk hsd hopen rep
  have hstay : Serves i c s s ∧ Answered k (s.hist c) (s.client c) (s.hist c) :=
    ⟨.refl, k, hk, ⟨rfl, rfl, rfl, rfl, rfl⟩, .inl rfl⟩
  simp only [proc, hk, hcmd]
  cases hproc : r.proc with
  | client =>
    simp only [kind?, hproc] at hkind
    simp only [clientCommand]
    cases hargs : r.args with
    | nil => exact hstay
    | cons sub rest =>
      simp only [hargs] at hkind
      dsimp only
      split_ifs at hkind ⊢ with hl hkill
      · simp only [clientKill, hargs, tail_cons, if_pos hsteps]
        cases hp : parseKill rest with
        | error e => exact hreply _
        | ok ckd => simp [hp] at hkind
      · exact hreply _
  | command =>
    simp only [kind?, hproc] at hkind
    simp only [commandCommand]
    split
    · next sub hargs =>
      simp only [hargs] at hkind
      split_ifs at hkind ⊢ with hst
      exact hreply _
    · exact hreply _
  | close =>
    obtain ⟨hserve, ⟨p, hp⟩, hh⟩ := addReply_setClient (i := i) hk hsd hopen .ok
      (fun k => { k with closeAfterReply := true }) (fun _ => rfl) fun _ => rfl
    exact ⟨hserve, _, hp, ⟨rfl, rfl, rfl, rfl, rfl⟩, .inr ⟨.ok, hh⟩⟩
  | other replies =>
    cases replies with
    | true => exact hreply _
    | false => exact hstay

end Vire.Jump
