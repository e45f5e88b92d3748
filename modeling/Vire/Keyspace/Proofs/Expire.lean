import Vire.Keyspace.Expire
import Vire.Keyspace.Proofs.Db
import Vire.Logic.Run

/-!
# What a call can do to a key

`KeyStep` says for each key what a call on its database can do to its value and its deadline.  What
holds along a run is derived from that.
-/

namespace Vire

open Option Vire.Logic
open Function (update_self update_of_ne update_eq_self update_idem)

section

variable {V : Type} [HashFn] {db db' : Db V} {key : Sds} {now : ℕ}

namespace DbCall

def Stores (key : Sds) : DbCall V → Prop
  | set _ _ k _ => k = key
  | dbAdd k _ => k = key
  | setKey _ k _ => k = key
  | _ => False

/-- The call is a SET with the deadline `t`. -/
def SetsDeadline (now : ℕ) (t : ℤ) : DbCall V → Prop
  | set name o _ _ =>
    ∃ expire ms, o.expire = some expire ∧ expireMillis name expire o.unit = .ok ms ∧
      t = wrap (now + ms)
  | _ => False

end DbCall

/-- Value and deadline of a key before and after a call. -/
inductive KeyStep (now : ℕ) (c : DbCall V) (key : Sds) :
    Option V → Option ℤ → Option V → Option ℤ → Prop
  | same (v : Option V) (t : Option ℤ) : KeyStep now c key v t v t
  | gone (v : Option V) (t : Option ℤ) : KeyStep now c key v t none none
  | alter (v v' : V) (t : Option ℤ) : KeyStep now c key (some v) t (some v') t
  | store {v : Option V} {t : Option ℤ} {v' : V} {t' : Option ℤ} (hs : c.Stores key)
      (ht : ∀ x, t' = some x → c.SetsDeadline now x) : KeyStep now c key v t (some v') t'
  | deadline {v : V} {t : Option ℤ} {t' : ℤ} (hlive : ∀ x, t = some x → 0 ≤ x → (now : ℤ) ≤ x)
      (hfuture : now < t') : KeyStep now c key (some v) t (some v) (some t')
  | persist {v : V} {t : Option ℤ} (hc : c = .persist key) :
      KeyStep now c key (some v) t (some v) none

/-- A call keeps the invariant, and does to each key what it can do. -/
def DbStep (now : ℕ) (c : DbCall V) (db db' : Db V) : Prop :=
  db'.Ok ∧ ∀ key, KeyStep now c key (db.dict.get key) (db.expires.get key) (db'.dict.get key)
    (db'.expires.get key)

variable {c : DbCall V}

theorem Db.Is.dbStep_same (h : db'.Is db.dict.get db.expires.get) : DbStep now c db db' :=
  ⟨h.ok, fun key => by rw [h.dict, h.expires]; exact .same _ _⟩

theorem Db.Is.dbStep_gone (h : db'.Is (Function.update db.dict.get key none)
    (Function.update db.expires.get key none)) : DbStep now c db db' := by
  refine ⟨h.ok, fun x => ?_⟩
  rw [h.dict, h.expires]
  by_cases hx : x = key
  · subst hx
    simp only [update_self]
    exact .gone _ _
  · simp only [update_of_ne hx]
    exact .same _ _

theorem Db.Is.dbStep_alter {v : V} (hkey : (db.dict.get key).isSome = true)
    (h : db'.Is (Function.update db.dict.get key (some v)) db.expires.get) :
    DbStep now c db db' := by
  refine ⟨h.ok, fun x => ?_⟩
  rw [h.dict, h.expires]
  by_cases hx : x = key
  · subst hx
    obtain ⟨w, hw⟩ := isSome_iff_exists.mp hkey
    rw [update_self, hw]
    exact .alter _ _ _
  · simp only [update_of_ne hx]
    exact .same _ _

theorem Db.Is.dbStep_store {v : V} {t : Option ℤ} (hs : c.Stores key)
    (ht : ∀ x, t = some x → c.SetsDeadline now x)
    (h : db'.Is (Function.update db.dict.get key (some v)) (Function.update db.expires.get key t)) :
    DbStep now c db db' := by
  refine ⟨h.ok, fun x => ?_⟩
  rw [h.dict, h.expires]
  by_cases hx : x = key
  · subst hx
    simp only [update_self]
    exact .store hs ht
  · simp only [update_of_ne hx]
    exact .same _ _

section

variable (h : db.Ok)

include h

theorem expireIfNeeded_dbStep (key : Sds) :
    DbStep now c db (expireIfNeeded .master db key now).1 := by
  rcases h.expireIfNeeded_is key now with ⟨his, -⟩ | ⟨his, -⟩
  · exact his.dbStep_same
  · exact his.dbStep_gone

theorem setUnderLock_dbStep {flags : SetFlags} {val : V} {millis : Option ℤ}
    (hs : c.Stores key) (ht : ∀ ms, millis = some ms → c.SetsDeadline now (wrap (now + ms)))
    (hrun : (setUnderLock .master flags key val millis now db).1 = some db') :
    DbStep now c db db' := by
  have hrest := h.expireIfNeeded_rest key now
  unfold setUnderLock at hrun
  dsimp only [lookupKeyWrite] at hrun
  split at hrun
  · cases hrun
    exact expireIfNeeded_dbStep h key
  · cases millis with
    | none =>
      have his := hrest.ok.setKey_is hrun
      rw [hrest.dict, hrest.expires] at his
      exact his.dbStep_store hs (fun x hx => by simp at hx)
    | some ms =>
      simp only [bind_eq_some_iff] at hrun
      obtain ⟨db2, hset, hexpire⟩ := hrun
      have his := hrest.ok.setKey_is hset
      have hres := (his.ok.setExpire_is hexpire).2
      rw [his.dict, his.expires, hrest.dict, update_idem, hrest.expires] at hres
      exact hres.dbStep_store hs (fun x hx => by cases hx; exact ht ms rfl)

theorem setGenericCommand_dbStep {name : Sds} {o : SetOptions} {val : V}
    (hrun : (setGenericCommand .master name o key val now db).1 = some db') :
    DbStep now (.set name o key val) db db' := by
  rcases ho : o.expire with _ | expire
  · simp only [setGenericCommand, ho] at hrun
    exact setUnderLock_dbStep h rfl (fun ms hms => by simp at hms) hrun
  · rcases hms : expireMillis name expire o.unit with e | ms
    · simp only [setGenericCommand, ho, hms] at hrun
      cases hrun
      exact h.is.dbStep_same
    · simp only [setGenericCommand, ho, hms] at hrun
      refine setUnderLock_dbStep h rfl (fun x hx => ?_) hrun
      cases hx
      exact ⟨expire, ms, ho, hms, rfl⟩

theorem expireGenericCommand_dbStep {param : Sds} {basetime : ℤ} {unit : TimeUnit}
    (hrun : (expireGenericCommand .master key param basetime unit now db).1 = some db') :
    DbStep now c db db' := by
  have hrest := h.expireIfNeeded_rest key now
  unfold expireGenericCommand at hrun
  split at hrun
  · cases hrun
    exact h.is.dbStep_same
  dsimp only [lookupKeyWrite] at hrun
  split at hrun
  · cases hrun
    exact expireIfNeeded_dbStep h key
  rename_i hnone
  split at hrun
  · split_ifs at hrun
    cases hrun
    have his := (hrest.ok.dbDelete_is key).1
    rw [hrest.dict, hrest.expires] at his
    exact his.dbStep_gone
  · rename_i hpast
    -- the key was found, so it was not expired, and the deadline is in the future
    rw [hrest.ok.lookupKey_eq] at hnone
    rcases h.expireIfNeeded_is key now with ⟨hsame, hlive⟩ | ⟨hgone, -⟩
    · obtain ⟨hkey, his⟩ := hrest.ok.setExpire_is hrun
      rw [hsame.dict] at hkey his
      rw [hsame.expires] at his
      refine ⟨his.ok, fun x => ?_⟩
      rw [his.dict, his.expires]
      by_cases hx : x = key
      · subst hx
        obtain ⟨v, hv⟩ := isSome_iff_exists.mp hkey
        rw [hv, update_self]
        rw [h.getExpire_eq] at hlive
        refine .deadline (fun t ht h0 => ?_) ?_
        · rw [ht, getD_some] at hlive
          omega
        · simpa [Role.master] using hpast
      · rw [update_of_ne hx]
        exact .same _ _
    · rw [hgone.dict, update_self] at hnone
      exact absurd rfl hnone

theorem persistCommand_dbStep (hrun : (persistCommand key db).1 = some db') :
    DbStep now (.persist key) db db' := by
  unfold persistCommand at hrun
  split at hrun
  · cases hrun
    exact h.is.dbStep_same
  · rcases hrem : removeExpire db key with _ | r
    · simp [hrem] at hrun
    · simp only [hrem, some.injEq] at hrun
      obtain ⟨hkey, his⟩ := h.removeExpire_is hrem
      subst hrun
      refine ⟨his.ok, fun x => ?_⟩
      rw [his.dict, his.expires]
      by_cases hx : x = key
      · subst hx
        obtain ⟨v, hv⟩ := isSome_iff_exists.mp hkey
        rw [hv, update_self]
        exact .persist rfl
      · rw [update_of_ne hx]
        exact .same _ _

theorem activeExpireCycleSample_dbStep (random : ℕ) (t : ℤ) :
    DbStep now c db (activeExpireCycleSample random t db) := by
  have hrandom := (dictGetRandomKey_spec h.expires random).1
  have hsame : Db.Is { db with expires := (dictGetRandomKey db.expires random).2 } _ _ :=
    h.same h.dict.same hrandom
  simp only [activeExpireCycleSample]
  rcases (dictGetRandomKey db.expires random).1 with _ | de
  · exact hsame.dbStep_same
  · simp only [activeExpireCycleTryExpire]
    split_ifs
    · have his := (hsame.ok.dbDelete_is de.1).1
      rw [hsame.dict, hsame.expires] at his
      exact his.dbStep_gone
    · exact hsame.dbStep_same

theorem DbCall.run_dbStep (c : DbCall V) (hrun : c.run now db = some db') :
    DbStep now c db db' := by
  cases c with
  | set name o key val => exact setGenericCommand_dbStep h hrun
  | expire key param relative unit => exact expireGenericCommand_dbStep h hrun
  | persist key => exact persistCommand_dbStep h hrun
  | expireIfNeeded key =>
    cases hrun
    exact expireIfNeeded_dbStep h key
  | dbAdd key val =>
    obtain ⟨hnone, his⟩ := h.dbAdd_is hrun
    have hexp := h.expires_none hnone
    refine Db.Is.dbStep_store (t := none) rfl (fun x hx => by simp at hx) ⟨his.ok, his.dict, ?_⟩
    rw [his.expires, ← hexp, update_eq_self]
  | dbOverwrite key val =>
    obtain ⟨hkey, his⟩ := h.dbOverwrite_is hrun
    exact his.dbStep_alter hkey
  | alter key f =>
    simp only [DbCall.run, map_eq_some_iff] at hrun
    obtain ⟨e, he, rfl⟩ := hrun
    have hkey : (db.dict.get key).isSome = true := by
      rw [← h.dict.dictFind_isSome, he]
      rfl
    obtain ⟨hw, hget⟩ := get_setVal h.dict hkey (f e.2)
    exact (h.put hkey hw hget).dbStep_alter hkey
  | setKey expired key val =>
    exact (h.setKey_is hrun).dbStep_store rfl (fun x hx => by simp at hx)
  | dbDelete key =>
    cases hrun
    exact (h.dbDelete_is key).1.dbStep_gone
  | activeExpireCycle random age =>
    cases hrun
    exact activeExpireCycleSample_dbStep h random _
  | dictEmpty =>
    cases hrun
    exact ⟨redisDbInit_is.ok, fun x => .gone _ _⟩
  | rehash n m =>
    cases hrun
    exact (h.same (dictRehash_same h.dict n) (dictRehash_same h.expires m)).dbStep_same
  | tryResizeHashTables =>
    cases hrun
    exact (h.same (resizeIfNeeded_same h.dict) (resizeIfNeeded_same h.expires)).dbStep_same

end

theorem Store.step_cases {s s' : Store V} {a : Call V} (hok : ∀ i, (s.dbs i).Ok)
    (h : s.step a = some s') :
    (∃ ms, a = .tick ms ∧ s' = { s with now := s.now + ms }) ∨
      ∃ i c, a = .on i c ∧ s'.now = s.now ∧ DbStep s.now c (s.dbs i) (s'.dbs i) ∧
        ∀ j, j ≠ i → s'.dbs j = s.dbs j := by
  cases a with
  | tick ms =>
    cases h
    exact .inl ⟨ms, rfl, rfl⟩
  | on i c =>
    simp only [Store.step, map_eq_some_iff] at h
    obtain ⟨db, hdb, rfl⟩ := h
    refine .inr ⟨i, c, rfl, rfl, ?_, fun j hj => update_of_ne hj _ _⟩
    dsimp only
    rw [update_self]
    exact c.run_dbStep (hok i) hdb

theorem Store.step_ok {s s' : Store V} {a : Call V} (hok : ∀ i, (s.dbs i).Ok)
    (h : s.step a = some s') (i : ℕ) : (s'.dbs i).Ok := by
  rcases s.step_cases hok h with ⟨ms, -, rfl⟩ | ⟨j, c, -, -, hstep, hother⟩
  · exact hok i
  · by_cases hij : i = j
    · subst hij
      exact hstep.1
    · rw [hother i hij]
      exact hok i

variable {n : ℕ}

theorem run_ok (r : Run Store.step (Store.init n : Store V)) (m i : ℕ) : ((r.state m).dbs i).Ok :=
  r.invariant (I := fun s => ∀ i, (s.dbs i).Ok) (G := fun _ _ => True) (fun _ _ _ => trivial)
    (fun _ => redisDbInit_is.ok) (fun _ _ _ hok _ h => Store.step_ok hok h) m i

/-- Each key with a deadline has a value, so that the check of `getExpire` never fails. -/
theorem deadlines_of_keys (r : Run Store.step (Store.init n : Store V)) (m i : ℕ) :
    texts ((r.state m).dbs i).expires.entries ⊆ texts ((r.state m).dbs i).dict.entries :=
  fun key hkey => Dict.get_isSome_iff.mp ((run_ok r m i).subset key (Dict.get_isSome_iff.mpr hkey))

/-- The three tests agree on a deadline at every time, if and only if it is positive. -/
theorem Db.Ok.paths_agree_iff (h : db.Ok) {t : ℤ} (ht : db.expires.get key = some t) :
    (∀ now : ℤ, (checkIfExpired db key now = true ↔ t < now) ∧
      (lookupKey (expireIfNeeded .master db key now).1 key = none ↔ t < now) ∧
      (lookupKey (activeExpireCycleTryExpire db (key, t) now).1 key = none ↔ t < now)) ↔ 0 < t := by
  have hkey : db.dict.get key ≠ none :=
    isSome_iff_ne_none.mp (h.subset key (by rw [ht]; rfl))
  have hcheck : ∀ now, checkIfExpired db key now = true ↔ 0 < t ∧ t < now := by
    intro now
    rw [h.checkIfExpired_eq, ht]
    simp
  constructor
  · intro hall
    exact ((hcheck (t + 1)).mp ((hall (t + 1)).1.mpr (by omega))).1
  · intro hpos now
    refine ⟨by rw [hcheck]; omega, ?_, ?_⟩
    · rcases h.expireIfNeeded_is key now with ⟨his, hlive⟩ | ⟨his, -, hlt⟩
      · rw [h.getExpire_eq, ht, getD_some] at hlive
        rw [his.ok.lookupKey_eq, his.dict]
        exact ⟨fun hn => absurd hn hkey, fun hlt => absurd ⟨by omega, hlt⟩ hlive⟩
      · rw [h.getExpire_eq, ht, getD_some] at hlt
        rw [his.ok.lookupKey_eq, his.dict, update_self]
        exact ⟨fun _ => hlt, fun _ => rfl⟩
    · unfold activeExpireCycleTryExpire
      split_ifs with hlt
      · have his := (h.dbDelete_is key).1
        rw [his.ok.lookupKey_eq, his.dict, update_self]
        exact ⟨fun _ => hlt, fun _ => rfl⟩
      · rw [h.lookupKey_eq]
        exact ⟨fun hn => absurd hn hkey, fun h => absurd h hlt⟩

/-- The clock and the time to live of a SET add up to a positive number, in 64 bits. -/
def DeadlinesPositive (s : Store V) : Call V → Prop
  | .on _ c => ∀ t, c.SetsDeadline s.now t → 0 < t
  | .tick _ => True

theorem run_deadline_pos (r : Run Store.step (Store.init n : Store V))
    (hr : r.Meets DeadlinesPositive)
    (m i : ℕ) {t : ℤ} (ht : ((r.state m).dbs i).expires.get key = some t) : 0 < t := by
  refine (r.invariant (I := fun s => ∀ i, (s.dbs i).Ok ∧ ∀ key t, (s.dbs i).expires.get key =
    some t → 0 < t)
    hr (fun _ => ⟨redisDbInit_is.ok, fun _ _ h => by simp [Store.init, redisDbInit] at h⟩) ?_ m i).2
    key t ht
  intro s a s' hI hG h j
  refine ⟨Store.step_ok (fun i => (hI i).1) h j, fun key t ht => ?_⟩
  rcases s.step_cases (fun i => (hI i).1) h with ⟨ms, -, rfl⟩ | ⟨i, c, rfl, -, ⟨-, hkeys⟩, hother⟩
  · exact (hI j).2 key t ht
  · by_cases hji : j = i
    · subst hji
      have hk := hkeys key
      rw [ht] at hk
      generalize hd : (s'.dbs j).dict.get key = v' at hk
      generalize hv : (s.dbs j).dict.get key = v at hk
      generalize hu : (s.dbs j).expires.get key = u at hk
      cases hk with
      | same => exact (hI j).2 key t hu
      | alter => exact (hI j).2 key t hu
      | store hs hset => exact hG t (hset t rfl)
      | deadline hlive hfuture => omega
    · rw [hother j hji] at ht
      exact (hI j).2 key t ht

/-- In a run in which no SET overflows, the three paths agree on every stored deadline, and what a
read returns the backend does not delete at that time. -/
theorem expiry_paths_agree (r : Run Store.step (Store.init n : Store V))
    (hr : r.Meets DeadlinesPositive) (m i : ℕ) (key : Sds) (t : ℤ)
    (ht : ((r.state m).dbs i).expires.get key = some t) (now : ℤ) :
    (checkIfExpired ((r.state m).dbs i) key now = true ↔ t < now) ∧
    (lookupKey (expireIfNeeded .master ((r.state m).dbs i) key now).1 key = none ↔ t < now) ∧
    (lookupKey (activeExpireCycleTryExpire ((r.state m).dbs i) (key, t) now).1 key =
      none ↔ t < now) ∧
    ((lookupKeyRead ((r.state m).dbs i) key now).isSome = true →
      (activeExpireCycleTryExpire ((r.state m).dbs i) (key, t) now).1 = (r.state m).dbs i) := by
  obtain ⟨hread, hwrite, hactive⟩ :=
    ((run_ok r m i).paths_agree_iff ht).mpr (run_deadline_pos r hr m i ht) now
  refine ⟨hread, hwrite, hactive, fun hget => ?_⟩
  by_cases hlt : t < now
  · rw [lookupKeyRead, if_pos (hread.mpr hlt)] at hget
    exact Bool.noConfusion hget
  · rw [activeExpireCycleTryExpire, if_neg hlt]

end

/-! A store with one database, its clock at 1. -/

@[reducible]
def oneDb : Host := .plain 1 1 (by decide)

abbrev oneStep : Store ℕ → Call ℕ → Option (Store ℕ) := @Store.step ℕ oneDb.toHashFn

def psetex (ms : String) (v : ℕ) : Call ℕ :=
  .on 0 (.set (ascii "psetex".toList) ⟨.none, some (ascii ms.toList), .milliseconds⟩ [107] v)

theorem psetex_positive : DeadlinesPositive (Store.init 1) (psetex "50" 7) := by
  rintro t ⟨expire, ms, ⟨⟩, hms, rfl⟩
  have hfifty :
      expireMillis (ascii "psetex".toList) (ascii "50".toList) .milliseconds = .ok 50 := by
    decide
  obtain rfl : 50 = ms := Except.ok.inj (hfifty.symm.trans hms)
  decide

theorem psetex_runs : (exec oneStep (Store.init 1) [psetex "50" 7]).isSome = true := by
  decide +kernel

theorem psetex_deadline :
    (((exec oneStep (Store.init 1) [psetex "50" 7]).get psetex_runs).dbs 0).expires.get [107] =
      some 51 := by
  decide +kernel

theorem expiry_paths_agree_psetex :
    @checkIfExpired ℕ oneDb.toHashFn
        (((exec oneStep (Store.init 1) [psetex "50" 7]).get psetex_runs).dbs 0) [107] 52 = true ↔
      (51 : ℤ) < 52 := by
  have hmeets : (Run.ofList _ psetex_runs).Meets DeadlinesPositive :=
    Run.ofList_meets psetex_runs (.cons psetex_positive fun _ _ => trivial)
  exact (@expiry_paths_agree ℕ oneDb.toHashFn 1 (Run.ofList _ psetex_runs) hmeets 1 0 [107] 51
    psetex_deadline 52).1

/-- The deadline of a SET that overflows is negative: reads find the key and do not delete it, the
active expire cycle deletes it. -/
theorem psetex_overflow :
    (exec oneStep (Store.init 1) [psetex "9223372036854775807" 7]).map (fun s =>
      let _ := oneDb
      (checkIfExpired (s.dbs 0) [107] s.now,
        lookupKey (expireIfNeeded .master (s.dbs 0) [107] s.now).1 [107],
        lookupKey (activeExpireCycleSample 0 s.now (s.dbs 0)) [107])) =
      some (false, some 7, none) := by
  decide +kernel

section

variable {V : Type} [HashFn] {db db' : Db V} {key : Sds} {now n : ℕ}

def Gone (now : ℕ) (v : Option V) (t : Option ℤ) : Prop :=
  v = none ∨ ∃ x, t = some x ∧ 0 < x ∧ x < now

theorem Db.Ok.gone_iff (h : db.Ok) (now : ℕ) :
    lookupKeyRead db key now = none ↔ Gone now (db.dict.get key) (db.expires.get key) := by
  unfold lookupKeyRead Gone
  rw [← h.checkIfExpired_eq, h.lookupKey_eq]
  split_ifs with hc <;> simp [hc]

/-- PERSIST is not called on a key past its deadline. -/
def PersistsInTime (s : Store V) : Call V → Prop
  | .on i (.persist key) => checkIfExpired (s.dbs i) key s.now = false
  | _ => True

omit [HashFn] in
theorem KeyStep.gone_of {c : DbCall V} {v v' : Option V} {t t' : Option ℤ}
    (h : KeyStep now c key v t v' t') (hgone : Gone now v t) (hs : ¬ c.Stores key)
    (hp : c = .persist key → ¬ ∃ x, t = some x ∧ 0 < x ∧ x < now) : Gone now v' t' := by
  cases h with
  | same => exact hgone
  | gone => exact .inl rfl
  | alter => exact .inr (hgone.resolve_left (by simp))
  | store hst _ => exact absurd hst hs
  | deadline hlive _ =>
    obtain ⟨x, hx, hpos, hlt⟩ := hgone.resolve_left (by simp)
    have := hlive x hx hpos.le
    omega
  | persist hc => exact absurd (hgone.resolve_left (by simp)) (hp hc)

theorem Store.step_gone {s s' : Store V} {a : Call V} (hok : ∀ i, (s.dbs i).Ok)
    (h : s.step a = some s') (hp : PersistsInTime s a) {i : ℕ}
    (hs : ∀ c, a = .on i c → ¬ c.Stores key) (hgone : lookupKeyRead (s.dbs i) key s.now = none) :
    lookupKeyRead (s'.dbs i) key s'.now = none := by
  have hok' := Store.step_ok hok h
  rw [(hok i).gone_iff] at hgone
  rw [(hok' i).gone_iff]
  rcases s.step_cases hok h with ⟨ms, -, rfl⟩ | ⟨j, c, rfl, hnow, ⟨-, hkeys⟩, hother⟩
  · refine hgone.imp id ?_
    rintro ⟨x, hx, hpos, hlt⟩
    exact ⟨x, hx, hpos, by push_cast; omega⟩
  · rw [hnow]
    by_cases hij : i = j
    · subst hij
      refine (hkeys key).gone_of hgone (hs c rfl) ?_
      rintro rfl
      rw [← (hok i).checkIfExpired_eq]
      exact fun hc => Bool.noConfusion (hc.symm.trans hp)
    · rw [hother i hij]
      exact hgone

theorem run_gone (r : Run Store.step (Store.init n : Store V)) (hr : r.Meets PersistsInTime)
    {m i : ℕ} {key : Sds} (hgone : lookupKeyRead ((r.state m).dbs i) key (r.state m).now = none)
    (d : ℕ) (hno : ∀ j c, m ≤ j → j < m + d → r.act j = some (.on i c) → c.Stores key →
      lookupKeyRead ((r.state (j + 1)).dbs i) key (r.state (j + 1)).now = none) :
    lookupKeyRead ((r.state (m + d)).dbs i) key (r.state (m + d)).now = none := by
  induction d with
  | zero => exact hgone
  | succ d ih =>
    have hbefore := ih fun j c hj hlt => hno j c hj (by omega)
    rw [← Nat.add_assoc]
    cases ha : r.act (m + d) with
    | none =>
      rw [r.pause_eq ha]
      exact hbefore
    | some a =>
      by_cases hs : ∃ c, a = .on i c ∧ c.Stores key
      · obtain ⟨c, rfl, hs⟩ := hs
        exact hno (m + d) c (by omega) (by omega) ha hs
      · exact Store.step_gone (run_ok r (m + d)) (r.step_eq ha) (hr _ a ha)
          (fun c hc hst => hs ⟨c, hc, hst⟩) hbefore

/-- A key that reads do not find is not found again, in a run without a late PERSIST, before a call
that stores a new value for it (after one that is refused it is still not found). -/
theorem gone_until_stored (r : Run Store.step (Store.init n : Store V))
    (hr : r.Meets PersistsInTime) {m m' i : ℕ} {key : Sds} (hle : m ≤ m')
    (hgone : lookupKeyRead ((r.state m).dbs i) key (r.state m).now = none)
    (hback : (lookupKeyRead ((r.state m').dbs i) key (r.state m').now).isSome = true) :
    ∃ j c, m ≤ j ∧ j < m' ∧ r.act j = some (.on i c) ∧ c.Stores key ∧
      (lookupKeyRead ((r.state (j + 1)).dbs i) key (r.state (j + 1)).now).isSome = true := by
  obtain ⟨d, rfl⟩ := Nat.exists_eq_add_of_le hle
  by_contra hno
  rw [run_gone r hr hgone d fun j c hj hlt ha hs => ?_] at hback
  · exact Bool.noConfusion hback
  · rw [← not_isSome_iff_eq_none]
    exact fun hfound => hno ⟨j, c, hj, hlt, ha, hs, hfound⟩

end

def setAgain : List (Call ℕ) := [psetex "50" 7, .tick 100, psetex "50" 8]

theorem setAgain_runs : (exec oneStep (Store.init 1) setAgain).isSome = true := by decide +kernel

theorem gone_until_stored_setAgain :
    let r := Run.ofList _ setAgain_runs
    ∃ j c, 2 ≤ j ∧ j < 3 ∧ r.act j = some (.on 0 c) ∧ c.Stores [107] ∧
      (@lookupKeyRead ℕ oneDb.toHashFn ((r.state (j + 1)).dbs 0) [107]
        (r.state (j + 1)).now).isSome = true := by
  have hmeets : (Run.ofList _ setAgain_runs).Meets (@PersistsInTime ℕ oneDb.toHashFn) := by
    refine Run.ofList_meets setAgain_runs (.of_forall (fun s a ha => ?_) _)
    simp only [setAgain, List.mem_cons, List.not_mem_nil, or_false] at ha
    rcases ha with rfl | rfl | rfl <;> trivial
  exact @gone_until_stored ℕ oneDb.toHashFn 1 (Run.ofList _ setAgain_runs) hmeets 2 3 0 [107]
    (by decide) (by decide +kernel) (by decide +kernel)

/-- A late PERSIST brings back a key that reads did not find. -/
theorem persist_revives :
    (exec oneStep (Store.init 1) [psetex "50" 7, .tick 100]).map (fun s =>
      let _ := oneDb
      lookupKeyRead (s.dbs 0) [107] s.now) = some none ∧
    (exec oneStep (Store.init 1) [psetex "50" 7, .tick 100, .on 0 (.persist [107])]).map (fun s =>
      let _ := oneDb
      lookupKeyRead (s.dbs 0) [107] s.now) = some (some 7) := by
  decide +kernel

end Vire
