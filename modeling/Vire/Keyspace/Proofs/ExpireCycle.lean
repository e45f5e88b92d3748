import Mathlib.Algebra.BigOperators.Fin
import Vire.Keyspace.ExpireCycle
import Vire.Keyspace.Proofs.Db

/-!
# The active expire cycle ends

A round that is repeated has removed more than five keys with a deadline, so the rounds of a call
are paid for by the keys it removes (`active_expire_cycle`).
-/

namespace Vire.ExpireCycle

open Function Option

section Calls

variable {V : Type} [HashFn]

/-- `db'` is `db` without some keys whose deadlines meet `Due`. -/
structure Trimmed (Due : ℤ → Prop) (db db' : Db V) : Prop where
  ok : db'.Ok
  keys : ∀ key, db'.dict.get key = db.dict.get key ∧ db'.expires.get key = db.expires.get key ∨
    ∃ t, db.expires.get key = some t ∧ Due t ∧ db'.dict.get key = none ∧ db'.expires.get key = none

variable {Due Due' : ℤ → Prop} {db db' db'' : Db V}

theorem Trimmed.refl (h : db.Ok) : Trimmed Due db db := ⟨h, fun _ => .inl ⟨rfl, rfl⟩⟩

theorem Trimmed.mono (h : Trimmed Due db db') (himp : ∀ t, Due t → Due' t) :
    Trimmed Due' db db' := by
  refine ⟨h.ok, fun key => ?_⟩
  rcases h.keys key with hsame | ⟨t, ht, hdue, hgone⟩
  · exact .inl hsame
  · exact .inr ⟨t, ht, himp t hdue, hgone⟩

theorem Trimmed.trans (h : Trimmed Due db db') (h' : Trimmed Due db' db'') :
    Trimmed Due db db'' := by
  refine ⟨h'.ok, fun key => ?_⟩
  rcases h.keys key with ⟨hd, he⟩ | ⟨t, ht, hdue, hd, he⟩ <;>
    rcases h'.keys key with ⟨hd', he'⟩ | ⟨t', ht', hdue', hd', he'⟩
  · exact .inl ⟨hd'.trans hd, he'.trans he⟩
  · exact .inr ⟨t', he.symm.trans ht', hdue', hd', he'⟩
  · exact .inr ⟨t, ht, hdue, hd'.trans hd, he'.trans he⟩
  · exact .inr ⟨t, ht, hdue, hd', he'⟩

theorem Trimmed.of_is (h : db'.Is db.dict.get db.expires.get) : Trimmed Due db db' :=
  ⟨h.ok, fun key => .inl ⟨by rw [h.dict], by rw [h.expires]⟩⟩

theorem dbDelete_trimmed (h : db.Ok) {key : Sds} {t : ℤ} (ht : db.expires.get key = some t)
    (hdue : Due t) :
    Trimmed Due db (dbDelete db key).1 ∧
      (dbDelete db key).1.expires.size + 1 = db.expires.size := by
  obtain ⟨his, -⟩ := h.dbDelete_is key
  refine ⟨⟨his.ok, fun x => ?_⟩, ?_⟩
  · rw [his.dict, his.expires]
    by_cases hx : x = key
    · subst hx
      exact .inr ⟨t, ht, hdue, by simp, by simp⟩
    · exact .inl ⟨update_of_ne hx _ _, update_of_ne hx _ _⟩
  · obtain ⟨e, he, -⟩ := map_eq_some_iff.mp ht
    have hperm := (dictDelete_spec h.expires key).2.2.2.2 e he
    have hlen := hperm.length_eq
    have hsize : (dbDelete db key).1.expires = (dictDelete db.expires key).1 := by
      refine if_pos ?_
      rw [h.expires.size_eq, hlen]
      exact Nat.succ_pos _
    rw [hsize, h.expires.size_eq, (dictDelete_spec h.expires key).1.size_eq, hlen]
    rfl

theorem activeExpireCycleTryExpire_trimmed (h : db.Ok) {de : Sds × ℤ} (now : ℤ)
    (hde : db.expires.get de.1 = some de.2) :
    Trimmed (· < now) db (activeExpireCycleTryExpire db de now).1 ∧
      (activeExpireCycleTryExpire db de now).1.expires.size +
        (activeExpireCycleTryExpire db de now).2.toNat = db.expires.size := by
  unfold activeExpireCycleTryExpire
  split_ifs with hnow
  · exact dbDelete_trimmed h hde hnow
  · exact ⟨.refl h, rfl⟩

theorem sampleLoop_trimmed (random : ℕ → ℕ) (now : ℤ) (num : ℕ) :
    ∀ {s : Samples V}, s.db.Ok →
      Trimmed (· < now) s.db (sampleLoop random now num s).db ∧
        (sampleLoop random now num s).db.expires.size + (sampleLoop random now num s).expired =
          s.db.expires.size + s.expired := by
  induction num with
  | zero => exact fun h => ⟨.refl h, rfl⟩
  | succ num ih =>
    intro s h
    obtain ⟨hsame, hmem⟩ := dictGetRandomKey_spec h.expires (random s.draws)
    have his := h.same h.dict.same hsame
    have hsize : (dictGetRandomKey s.db.expires (random s.draws)).2.size = s.db.expires.size := by
      rw [hsame.wf.size_eq, h.expires.size_eq, hsame.perm.length_eq]
    simp only [sampleLoop]
    rcases hr : (dictGetRandomKey s.db.expires (random s.draws)).1 with _ | de
    · exact ⟨.of_is his, by rw [← hsize]⟩
    · have hde : s.db.expires.get de.1 = some de.2 := by
        have hassoc : assoc s.db.expires.entries de.1 = some de :=
          (assoc_eq_some h.expires.nodup).mpr ⟨hmem de hr, rfl⟩
        rw [Dict.get, hassoc]
        rfl
      obtain ⟨htrim, hcount⟩ :=
        activeExpireCycleTryExpire_trimmed his.ok now ((congrFun his.expires de.1).trans hde)
      have hnext := fun draws expired ttlSum ttlSamples =>
        ih (s := ⟨_, draws, expired, ttlSum, ttlSamples⟩) htrim.ok
      refine ⟨((Trimmed.of_is his).trans htrim).trans (hnext _ _ _ _).1,
        (hnext _ _ _ _).2.trans ?_⟩
      rw [← hsize, ← show _ = Dict.size _ from hcount, Nat.add_comm s.expired, Nat.add_assoc]

/-- A deadline that was over when the clock was read for one of the first `n` times. -/
def Over (w : World) (n : ℕ) (t : ℤ) : Prop := ∃ m < n, t < w.msec m

def volatileKeys (dbnum : ℕ) (dbs : ℕ → Db V) : ℕ :=
  ∑ i ∈ Finset.range dbnum, (dbs i).expires.size

/-- What a part of a call does: the keys removed are counted, and it costs `cost` rounds more than
the keys pay for, each six keys one round. -/
structure Expires (dbnum : ℕ) (w : World) (s : State V) (cost : ℕ) (s' : State V) : Prop where
  dbs : ∀ i, Trimmed (Over w s'.msecs) (s.dbs i) (s'.dbs i)
  msecs : s.msecs ≤ s'.msecs
  size_le : ∀ i, (s'.dbs i).expires.size ≤ (s.dbs i).expires.size
  total : s'.expiredTotal + volatileKeys dbnum s'.dbs = s.expiredTotal + volatileKeys dbnum s.dbs
  rounds : 6 * s'.iteration + volatileKeys dbnum s'.dbs ≤
    6 * s.iteration + volatileKeys dbnum s.dbs + 6 * cost

variable {dbnum : ℕ} {w : World} {s s' s'' : State V} {i cost cost' : ℕ}

theorem Expires.trans (h : Expires dbnum w s cost s') (h' : Expires dbnum w s' cost' s'') :
    Expires dbnum w s (cost + cost') s'' where
  dbs i := ((h.dbs i).mono fun _ ⟨m, hm, ht⟩ => ⟨m, hm.trans_le h'.msecs, ht⟩).trans (h'.dbs i)
  msecs := h.msecs.trans h'.msecs
  size_le i := (h'.size_le i).trans (h.size_le i)
  total := h'.total.trans h.total
  rounds := by
    have h1 := h.rounds
    have h2 := h'.rounds
    omega

theorem Expires.of_eq (hok : ∀ i, (s.dbs i).Ok) (hdbs : s'.dbs = s.dbs) (hm : s.msecs ≤ s'.msecs)
    (hi : s'.iteration = s.iteration) (ht : s'.expiredTotal = s.expiredTotal) :
    Expires dbnum w s 0 s' where
  dbs i := by
    rw [hdbs]
    exact .refl (hok i)
  msecs := hm
  size_le i := by rw [hdbs]
  total := by rw [hdbs, ht]
  rounds := by
    rw [hdbs, hi]
    omega

omit [HashFn] in
theorem volatileKeys_update (hi : i < dbnum) (dbs : ℕ → Db V) {db : Db V} {k : ℕ}
    (h : db.expires.size + k = (dbs i).expires.size) :
    volatileKeys dbnum (update dbs i db) + k = volatileKeys dbnum dbs := by
  have hmem : i ∈ Finset.range dbnum := Finset.mem_range.mpr hi
  unfold volatileKeys
  rw [← Finset.add_sum_erase _ _ hmem, ← Finset.add_sum_erase _ _ hmem, update_self]
  have hrest : ∑ j ∈ (Finset.range dbnum).erase i, (update dbs i db j).expires.size =
      ∑ j ∈ (Finset.range dbnum).erase i, (dbs j).expires.size :=
    Finset.sum_congr rfl fun j hj => by rw [update_of_ne (Finset.ne_of_mem_erase hj)]
  omega

section

omit [HashFn]

@[simp] theorem checkTime_dbs : (checkTime w s).dbs = s.dbs := by
  unfold checkTime; split_ifs <;> rfl
@[simp] theorem checkTime_msecs : (checkTime w s).msecs = s.msecs := by
  unfold checkTime; split_ifs <;> rfl
@[simp] theorem checkTime_locked : (checkTime w s).locked = s.locked := by
  unfold checkTime; split_ifs <;> rfl
@[simp] theorem checkTime_iteration : (checkTime w s).iteration = s.iteration := by
  unfold checkTime; split_ifs <;> rfl
@[simp] theorem checkTime_expiredTotal : (checkTime w s).expiredTotal = s.expiredTotal := by
  unfold checkTime; split_ifs <;> rfl

end

theorem sampleRound_spec (hi : i < dbnum) (hok : ∀ i, (s.dbs i).Ok) {n : ℕ} (hn : n < s.msecs) :
    (sampleRound w i (w.msec n) s).2.locked = s.locked ∧
      Expires dbnum w s 1 (sampleRound w i (w.msec n) s).2 ∧
      ((sampleRound w i (w.msec n) s).1 = .again →
        Expires dbnum w s 0 (sampleRound w i (w.msec n) s).2 ∧
        ((sampleRound w i (w.msec n) s).2.dbs i).expires.size + 6 ≤ (s.dbs i).expires.size) := by
  have hspec := sampleLoop_trimmed w.random (w.msec n)
    (min (s.dbs i).expires.size lookupsPerLoop) (s := ⟨s.dbs i, s.draws, 0, 0, 0⟩) (hok i)
  unfold sampleRound
  dsimp only
  generalize sampleLoop w.random (w.msec n) (min (s.dbs i).expires.size lookupsPerLoop)
    ⟨s.dbs i, s.draws, 0, 0, 0⟩ = r at hspec ⊢
  obtain ⟨htrim, hcount⟩ := hspec
  dsimp only at htrim hcount ⊢
  have hkeys := volatileKeys_update hi s.dbs hcount
  have hexp : ∀ s', s'.dbs = update s.dbs i r.db → s'.msecs = s.msecs →
      s'.expiredTotal = s.expiredTotal + r.expired → s'.iteration = s.iteration + 1 →
      ∀ cost, 6 ≤ r.expired + 6 * cost → Expires dbnum w s cost s' := by
    intro s' hdbs hmsecs htotal hiter cost hcost
    refine ⟨fun j => ?_, hmsecs.ge, fun j => ?_, ?_, ?_⟩
    · rw [hdbs, hmsecs]
      by_cases hj : j = i
      · subst hj
        rw [update_self]
        exact htrim.mono fun t ht => ⟨n, hn, ht⟩
      · rw [update_of_ne hj]
        exact .refl (hok j)
    · rw [hdbs]
      by_cases hj : j = i
      · subst hj
        rw [update_self]
        omega
      · rw [update_of_ne hj]
    · rw [hdbs, htotal]
      omega
    · rw [hdbs, hiter]
      omega
  split_ifs with htime hmany
  · exact ⟨by simp, hexp _ (by simp) (by simp) (by simp) (by simp) 1 (by omega), nofun⟩
  · have h5 : 5 < r.expired := hmany
    refine ⟨by simp, hexp _ (by simp) (by simp) (by simp) (by simp) 1 (by omega), fun _ =>
      ⟨hexp _ (by simp) (by simp) (by simp) (by simp) 0 (by omega), ?_⟩⟩
    simp only [checkTime_dbs, update_self]
    omega
  · exact ⟨by simp, hexp _ (by simp) (by simp) (by simp) (by simp) 1 (by omega), nofun⟩

theorem expireRound_spec (hi : i < dbnum) (hok : ∀ i, (s.dbs i).Ok) :
    (expireRound w i s).2.locked = s.locked ∧ Expires dbnum w s 1 (expireRound w i s).2 ∧
      ((expireRound w i s).1 = .again → Expires dbnum w s 0 (expireRound w i s).2 ∧
        ((expireRound w i s).2.dbs i).expires.size + 6 ≤ (s.dbs i).expires.size) := by
  have hone : ∀ s', Expires dbnum w s 0 s' → Expires dbnum w s 1 s' := by
    intro s' h
    have := h.rounds
    exact ⟨h.dbs, h.msecs, h.size_le, h.total, by omega⟩
  unfold expireRound
  dsimp only
  split_ifs with h0 hslots
  · exact ⟨rfl, hone _ (.of_eq hok rfl le_rfl rfl rfl), nofun⟩
  · exact ⟨rfl, hone _ (.of_eq hok rfl (Nat.le_succ _) rfl rfl), nofun⟩
  · have hread : Expires dbnum w s 0 { s with msecs := s.msecs + 1 } :=
      .of_eq hok rfl (Nat.le_succ _) rfl rfl
    obtain ⟨hlock, hexp, hagain⟩ :=
      sampleRound_spec (w := w) (s := { s with msecs := s.msecs + 1 }) hi hok (Nat.lt_succ_self _)
    refine ⟨hlock, ?_, fun ha => ⟨hread.trans (hagain ha).1, (hagain ha).2⟩⟩
    have := hread.trans hexp
    rwa [Nat.zero_add] at this

theorem expireLoop_spec (hi : i < dbnum) (rounds : ℕ) :
    ∀ {s : State V}, (∀ i, (s.dbs i).Ok) → (s.dbs i).expires.size / 6 < rounds →
      ∃ r, expireLoop w i rounds s = some r ∧ r.2.locked = s.locked ∧ Expires dbnum w s 1 r.2 := by
  induction rounds with
  | zero =>
    intro s _ h
    omega
  | succ rounds ih =>
    intro s hok hr
    obtain ⟨hlock, hexp, hagain⟩ := expireRound_spec (w := w) hi hok
    simp only [expireLoop]
    rcases hround : expireRound w i s with ⟨_ | _ | _, s1⟩
    · rw [hround] at hlock hexp
      exact ⟨_, rfl, hlock, hexp⟩
    · rw [hround] at hlock hagain
      obtain ⟨hexp0, hsize⟩ := hagain rfl
      obtain ⟨r, hloop, hlock', hexp'⟩ := ih (fun j => (hexp0.dbs j).ok) (by omega)
      refine ⟨r, hloop, hlock'.trans hlock, ?_⟩
      have := hexp0.trans hexp'
      rwa [Nat.zero_add] at this
    · rw [hround] at hlock hexp
      exact ⟨_, rfl, hlock, hexp⟩

theorem updateStats_spec (dbnum : ℕ) (w : World) (hok : ∀ i, (s.dbs i).Ok) :
    (updateStats s).locked = s.locked ∧ Expires dbnum w s 0 (updateStats s) := by
  unfold updateStats
  split_ifs
  · exact ⟨rfl, .of_eq hok rfl le_rfl rfl rfl⟩
  · exact ⟨rfl, .of_eq hok rfl le_rfl rfl rfl⟩

theorem dbLoop_spec (rounds : ℕ) (n : ℕ) :
    ∀ {s : State V}, n ≤ dbnum → s.locked = [] → (∀ i, (s.dbs i).Ok) →
      (∀ i < dbnum, (s.dbs i).expires.size / 6 < rounds) →
      ∃ s', dbLoop dbnum w rounds n s = some s' ∧ s'.locked = [] ∧ Expires dbnum w s n s' := by
  induction n with
  | zero =>
    intro s _ hl hok _
    obtain ⟨hl', hexp⟩ := updateStats_spec dbnum w hok
    exact ⟨_, rfl, hl'.trans hl, hexp⟩
  | succ n ih =>
    intro s hn hl hok hr
    have hi : s.backend.currentDb % dbnum < dbnum := Nat.mod_lt _ (by omega)
    simp only [dbLoop]
    generalize s.backend.currentDb % dbnum = i at hi ⊢
    generalize hb : Backend.mk _ _ _ _ = b
    have hlock : lockDbWrite i { s with backend := b } =
        some { s with backend := b, locked := [i] } := by
      simp only [lockDbWrite, hl, List.not_mem_nil, if_false]
    have hin : Expires dbnum w s 0 { s with backend := b, locked := [i] } :=
      .of_eq hok rfl le_rfl rfl rfl
    obtain ⟨r, hloop, hheld, hexp⟩ := expireLoop_spec (w := w) hi rounds
      (s := { s with backend := b, locked := [i] }) hok (hr i hi)
    have hok' : ∀ j, (r.2.dbs j).Ok := fun j => (hexp.dbs j).ok
    have hfree : (unlockDb i r.2).locked = [] := by
      simp only [unlockDb, hheld, List.erase_cons_head]
    have hunlock : Expires dbnum w r.2 0 (unlockDb i r.2) := .of_eq hok' rfl le_rfl rfl rfl
    have hout : Expires dbnum w s 1 (unlockDb i r.2) := (hin.trans hexp).trans hunlock
    simp only [hlock, bind_some, hloop]
    split_ifs
    · obtain ⟨hl', hexp'⟩ := updateStats_spec (s := unlockDb i r.2) dbnum w hok'
      have hend := hout.trans hexp'
      refine ⟨_, rfl, hl'.trans hfree, hend.dbs, hend.msecs, hend.size_le, hend.total, ?_⟩
      have := hend.rounds
      omega
    · obtain ⟨s', hs', hl', hexp'⟩ := ih (s := unlockDb i r.2) (by omega) hfree hok' fun j hj =>
        (Nat.div_le_div_right (hout.size_le j)).trans_lt (hr j hj)
      refine ⟨s', hs', hl', ?_⟩
      rw [Nat.add_comm n 1]
      exact hout.trans hexp'

theorem cycle_spec (type : CycleType) {rounds : ℕ} (hl : s.locked = []) (hok : ∀ i, (s.dbs i).Ok)
    (hr : ∀ i < dbnum, (s.dbs i).expires.size / 6 < rounds) :
    ∃ s', cycle type dbnum w rounds s = some s' ∧ s'.locked = [] ∧ Expires dbnum w s dbnum s' := by
  unfold cycle
  dsimp only
  generalize hn : (if dbnum < cronDbsPerCall ∨ s.backend.timelimitExit = true then dbnum
    else cronDbsPerCall) = n
  have hle : n ≤ dbnum := by
    split_ifs at hn <;> omega
  generalize hs1 : State.mk _ _ _ _ _ _ _ _ _ _ = s1
  have hin : Expires dbnum w s 0 s1 := by
    subst hs1
    exact .of_eq hok rfl le_rfl rfl rfl
  obtain ⟨s', hs', hl', hexp⟩ :=
    dbLoop_spec (w := w) (s := s1) rounds n hle (by rw [← hs1]; exact hl)
    (by rw [← hs1]; exact hok) (by rw [← hs1]; exact hr)
  have hend := hin.trans hexp
  refine ⟨s', hs', hl', hend.dbs, hend.msecs, hend.size_le, hend.total, ?_⟩
  have := hend.rounds
  omega

/-- However the clocks run and whatever is drawn, a call returns and holds no lock: enough rounds
for a database are one more than a sixth of its keys with a deadline.  Every database is the one it
was without some keys whose deadline was over when the clock was read; such a key has neither value
nor deadline left, and all other keys have both as before.  The rounds that took samples are at most
one for six keys removed and one for each database. -/
theorem active_expire_cycle (type : CycleType) (dbnum : ℕ) (w : World) (dbs : ℕ → Db V)
    (hok : ∀ i, (dbs i).Ok) (avgTtl : ℕ → ℤ) (backend : Backend) (rounds : ℕ)
    (hr : ∀ i < dbnum, (dbs i).expires.size / 6 < rounds) :
    ∃ s', activeExpireCycle type dbnum w rounds dbs avgTtl [] backend = some s' ∧ s'.locked = [] ∧
      (∀ i, Trimmed (Over w s'.msecs) (dbs i) (s'.dbs i)) ∧
      s'.expiredTotal + volatileKeys dbnum s'.dbs = volatileKeys dbnum dbs ∧
      s'.iteration ≤ s'.expiredTotal / 6 + dbnum := by
  have hsum : ∀ {b : Backend} {s' : State V},
      Expires dbnum w { enter dbs avgTtl [] backend with backend := b } dbnum s' →
      (∀ i, Trimmed (Over w s'.msecs) (dbs i) (s'.dbs i)) ∧
        s'.expiredTotal + volatileKeys dbnum s'.dbs = volatileKeys dbnum dbs ∧
        s'.iteration ≤ s'.expiredTotal / 6 + dbnum := by
    intro b s' h
    have htotal : s'.expiredTotal + volatileKeys dbnum s'.dbs = 0 + volatileKeys dbnum dbs :=
      h.total
    have hrounds : 6 * s'.iteration + volatileKeys dbnum s'.dbs ≤
        6 * 0 + volatileKeys dbnum dbs + 6 * dbnum := h.rounds
    exact ⟨h.dbs, by omega, by omega⟩
  have hnone : (∀ i, Trimmed (Over w 0) (dbs i) (dbs i)) ∧
      0 + volatileKeys dbnum dbs = volatileKeys dbnum dbs ∧ 0 ≤ 0 / 6 + dbnum :=
    ⟨fun i => .refl (hok i), Nat.zero_add _, Nat.zero_le _⟩
  unfold activeExpireCycle
  rcases type
  · obtain ⟨s', hs', hl', hexp⟩ :=
      cycle_spec (w := w) (s := enter dbs avgTtl [] backend) .slow rfl hok hr
    exact ⟨s', hs', hl', hsum hexp⟩
  · split_ifs
    · exact ⟨_, rfl, rfl, hnone⟩
    · exact ⟨_, rfl, rfl, hnone⟩
    · obtain ⟨s', hs', hl', hexp⟩ := cycle_spec (w := w)
        (s := { enter dbs avgTtl [] backend with
          backend := { backend with lastFastCycle := w.start } }) .fast rfl hok hr
      exact ⟨s', hs', hl', hsum hexp⟩

end Calls

/-- A database of these keys and deadlines. -/
def volatileDb [HashFn] : List (Sds × ℤ) → Db Unit
  | [] => redisDbInit
  | (key, t) :: l =>
    let db := (dbAdd (volatileDb l) key ()).getD (volatileDb l)
    (setExpire db key t).getD db

theorem volatileDb_ok [HashFn] (l : List (Sds × ℤ)) : (volatileDb l).Ok := by
  induction l with
  | nil => exact redisDbInit_is.ok
  | cons e l ih =>
    have hadd : ((dbAdd (volatileDb l) e.1 ()).getD (volatileDb l)).Ok := by
      cases h : dbAdd (volatileDb l) e.1 () with
      | none => exact ih
      | some db => exact (ih.dbAdd_is h).2.ok
    unfold volatileDb
    dsimp only
    cases h : setExpire ((dbAdd (volatileDb l) e.1 ()).getD (volatileDb l)) e.1 e.2 with
    | none => exact hadd
    | some db => exact (hadd.setExpire_is h).2.ok

/-- Two databases; at 9 the deadlines of eight of the ten keys are over. -/
theorem active_expire_cycle_two :
    let _ : HashFn := ⟨fun s => (s.map UInt8.toNat).sum⟩
    let dbs : ℕ → Db Unit :=
      fun i => if i = 0 then volatileDb [([97], 1), ([98], 2), ([99], 3), ([100], 4),
      ([101], 5), ([102], 6), ([103], 7), ([104], 90)] else volatileDb [([97], 8), ([98], 80)]
    let w : World := ⟨0, fun _ => 0, fun _ => 9, fun n => n⟩
    ∃ s', activeExpireCycle .slow 2 w 2 dbs (fun _ => 0) [] ⟨0, false, 0, 0⟩ = some s' ∧
      s'.locked = [] ∧ (∀ i, Trimmed (Over w s'.msecs) (dbs i) (s'.dbs i)) ∧
      s'.expiredTotal + volatileKeys 2 s'.dbs = 10 ∧ s'.iteration ≤ s'.expiredTotal / 6 + 2 := by
  intro _ dbs w
  have hok : ∀ i, (dbs i).Ok := by
    intro i
    change (if i = 0 then volatileDb _ else volatileDb _).Ok
    split_ifs <;> exact volatileDb_ok _
  have hkeys : volatileKeys 2 dbs = 10 := by decide +kernel
  obtain ⟨s', hs', hl, htrim, htotal, hrounds⟩ := active_expire_cycle .slow 2 w dbs hok (fun _ => 0)
    ⟨0, false, 0, 0⟩ 2 (by decide +kernel)
  exact ⟨s', hs', hl, htrim, htotal.trans hkeys, hrounds⟩

end Vire.ExpireCycle
