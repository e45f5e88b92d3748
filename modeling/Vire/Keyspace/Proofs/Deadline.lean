import Vire.Decimal
import Vire.Keyspace.Proofs.Expire

/-!
# Exact deadlines

The handlers compute a deadline in 64 bits and look at the result only.  `ExpireExact` and
`SetExact` say what they do with the exact deadline, and the results say for which arguments they do
it.
-/

namespace Vire

open Function Option

def TimeUnit.millis : TimeUnit → ℤ
  | .seconds => 1000
  | .milliseconds => 1

/-- The deadline as an integer: the base is the clock, or 0 for a point in time. -/
def exactDeadline (base arg : ℤ) (unit : TimeUnit) : ℤ := base + arg * unit.millis

theorem expireWhen_eq (arg base : ℤ) (unit : TimeUnit) :
    expireWhen arg base unit = wrap (exactDeadline base arg unit) := by
  cases unit
  · simp only [expireWhen, wrap, exactDeadline, TimeUnit.millis, if_true, Int.bmod_add_bmod]
    rw [Int.add_comm]
  · simp only [expireWhen, exactDeadline, TimeUnit.millis, reduceCtorEq, if_false, Int.mul_one]
    rw [Int.add_comm]

variable {arg : ℤ} {expire : Sds}

theorem expireMillis_pos (name : Sds)
    (harg : getLongLong expire = some arg) (hpos : 0 < arg) (unit : TimeUnit) (now : ℤ) :
    ∃ ms, expireMillis name expire unit = .ok ms ∧
      wrap (now + ms) = wrap (exactDeadline now arg unit) := by
  have hle : ¬ arg ≤ 0 := by omega
  cases unit
  · refine ⟨wrap (arg * 1000), by simp [expireMillis, harg, hle], ?_⟩
    simp only [wrap, exactDeadline, TimeUnit.millis, Int.add_bmod_bmod]
  · exact ⟨arg, by simp [expireMillis, harg, hle], by simp [exactDeadline, TimeUnit.millis]⟩

theorem expireMillis_nonpos (name : Sds)
    (harg : getLongLong expire = some arg) (hle : arg ≤ 0) (unit : TimeUnit) :
    ∃ e, expireMillis name expire unit = .error e :=
  ⟨_, by simp only [expireMillis, harg, hle, if_true]; rfl⟩

section

variable {V : Type} [HashFn] {db db' : Db V} {key : Sds} {now : ℤ}

/-- The key is there, and the write path does not find it expired. -/
def Db.Live (db : Db V) (key : Sds) (now : ℤ) : Prop :=
  (db.dict.get key).isSome = true ∧ ∀ t, db.expires.get key = some t → 0 ≤ t → now ≤ t

theorem Db.Ok.lookupKeyWrite_live (h : db.Ok) (hlive : db.Live key now) :
    lookupKeyWrite .master db key now = (db, db.dict.get key) := by
  have hpast : ¬ (0 ≤ getExpire db key ∧ getExpire db key < now) := by
    rw [h.getExpire_eq]
    rintro ⟨h0, hlt⟩
    rcases ht : db.expires.get key with _ | t
    · rw [ht] at h0
      exact absurd h0 (by decide)
    · rw [ht, getD_some] at h0 hlt
      have := hlive.2 t ht h0
      omega
  rw [lookupKeyWrite, expireIfNeeded_master, if_neg hpast, h.lookupKey_eq]

theorem Db.Ok.lookupKeyWrite_isSome (h : db.Ok) (key : Sds) (now : ℤ) :
    (lookupKeyWrite .master db key now).2.isSome = true ↔ db.Live key now := by
  constructor
  · intro hfound
    dsimp only [lookupKeyWrite] at hfound
    rw [(h.expireIfNeeded_rest key now).ok.lookupKey_eq] at hfound
    rcases h.expireIfNeeded_is key now with ⟨his, hnot⟩ | ⟨his, -⟩
    · rw [his.dict] at hfound
      refine ⟨hfound, fun t ht h0 => ?_⟩
      rw [h.getExpire_eq, ht, getD_some] at hnot
      omega
    · rw [his.dict, update_self] at hfound
      exact Bool.noConfusion hfound
  · intro hlive
    rw [h.lookupKeyWrite_live hlive]
    exact hlive.1

theorem Db.Ok.setExpire_some (h : db.Ok) (hkey : (db.dict.get key).isSome = true) (t : ℤ) :
    ∃ db', setExpire db key t = some db' ∧
      db'.Is db.dict.get (update db.expires.get key (some t)) := by
  rw [← h.dict.dictFind_isSome] at hkey
  obtain ⟨e, he⟩ := isSome_iff_exists.mp hkey
  have hset : setExpire db key t = some { db with expires := dictReplaceRaw db.expires e.1 t } := by
    rw [setExpire, he, map_some]
  exact ⟨_, hset, (h.setExpire_is hset).2⟩

theorem Db.Ok.setKey_some (h : db.Ok) (key : Sds) (val : V) (now : ℤ) :
    ∃ db', setKey .master false db key val now = some db' := by
  have hstore : ∃ db1, (if (lookupKey db key).isNone then dbAdd db key val
      else dbOverwrite db key val) = some db1 ∧ (db1.dict.get key).isSome = true ∧ db1.Ok := by
    rw [h.lookupKey_eq]
    split_ifs with hnone
    · have hadd : dbAdd db key val = some { db with dict := (dictAdd db.dict key val).1 } := by
        simp only [dbAdd, dictAdd_flag h.dict]
        exact if_pos hnone
      have his := (h.dbAdd_is hadd).2
      exact ⟨_, hadd, by rw [his.dict, update_self]; rfl, his.ok⟩
    · have hkey : (dictFind db.dict key).isSome = true := by
        rw [h.dict.dictFind_isSome]
        simpa [isSome_iff_ne_none] using hnone
      have hover : dbOverwrite db key val =
          some { db with dict := (dictReplace db.dict key val).1 } := by
        rw [dbOverwrite, if_pos hkey]
      have his := (h.dbOverwrite_is hover).2
      exact ⟨_, hover, by rw [his.dict, update_self]; rfl, his.ok⟩
  obtain ⟨db1, hdb1, hkey, hok⟩ := hstore
  rw [← hok.dict.dictFind_isSome] at hkey
  refine ⟨{ db1 with expires := (dictDelete db1.expires key).1 }, ?_⟩
  simp only [setKey, Bool.false_eq_true, if_false, hdb1, bind_some, removeExpire, hkey,
    if_true, map_some]

/-- The handler refuses and changes nothing, or the key gets this deadline and is deleted if it is
not in the future. -/
def ExpireExact (key : Sds) (deadline now : ℤ) (db : Db V) (r : Option (Db V) × ExpireReply) :
    Prop :=
  (∃ msg, r = (some db, .error msg)) ∨
    ∃ db', r = (some db', .cone) ∧
      if deadline ≤ now then
        db'.Is (update db.dict.get key none) (update db.expires.get key none)
      else db'.Is db.dict.get (update db.expires.get key (some deadline))

variable {param : Sds}

theorem expireGenericCommand_exact (h : db.Ok) (hlive : db.Live key now)
    (harg : getLongLong param = some arg) (base : ℤ) (unit : TimeUnit) :
    ∃ db', expireGenericCommand .master key param base unit now db = (some db', .cone) ∧
      if wrap (exactDeadline base arg unit) ≤ now then
        db'.Is (update db.dict.get key none) (update db.expires.get key none)
      else db'.Is db.dict.get
        (update db.expires.get key (some (wrap (exactDeadline base arg unit)))) := by
  obtain ⟨v, hv⟩ := isSome_iff_exists.mp hlive.1
  simp only [expireGenericCommand, harg, expireWhen_eq, h.lookupKeyWrite_live hlive, hv,
    isNone_some, Bool.false_eq_true, if_false]
  simp only [Role.master, Bool.not_false, Bool.and_true, decide_eq_true_eq, (h.dbDelete_is key).2,
    hlive.1, if_true]
  split_ifs
  · exact ⟨_, rfl, (h.dbDelete_is key).1⟩
  · obtain ⟨db', hset, his⟩ := h.setExpire_some hlive.1 (wrap (exactDeadline base arg unit))
    exact ⟨db', by rw [hset], his⟩

theorem Db.Is.update_ne {t : ℤ} (hgone : db'.Is (update db.dict.get key none)
    (update db.expires.get key none)) {vals : Sds → Option V}
    (hkept : db'.Is vals (update db.expires.get key (some t))) : False := by
  have := congrFun (hgone.expires.symm.trans hkept.expires) key
  simp at this

theorem expireExact_iff (h : db.Ok) (hnow : llongMin ≤ now ∧ now ≤ llongMax)
    (hlive : db.Live key now) (harg : getLongLong param = some arg) (base : ℤ) (unit : TimeUnit) :
    ExpireExact key (exactDeadline base arg unit) now db
        (expireGenericCommand .master key param base unit now db) ↔
      exactDeadline base arg unit ≤ llongMax ∧ (llongMin ≤ exactDeadline base arg unit ∨
        wrap (exactDeadline base arg unit) ≤ now) := by
  obtain ⟨db', hrun, his⟩ := expireGenericCommand_exact h hlive harg base unit
  rw [hrun]
  generalize exactDeadline base arg unit = e at his
  have hrange := @wrap_eq_self_iff e
  constructor
  · rintro (⟨msg, herr⟩ | ⟨db1, hres, hexact⟩)
    · cases herr
    · cases hres
      by_contra hcond
      have hne : wrap e ≠ e := fun heq => hcond ⟨(hrange.mp heq).2, .inl (hrange.mp heq).1⟩
      split_ifs at his hexact with hw he he
      · exact hcond ⟨by omega, .inr hw⟩
      · exact his.update_ne hexact
      · exact hexact.update_ne his
      · have hsame := congrFun (his.expires.symm.trans hexact.expires) key
        simp only [update_self, some.injEq] at hsame
        exact hne hsame
  · rintro ⟨hhi, hlo⟩
    refine .inr ⟨db', rfl, ?_⟩
    by_cases hin : llongMin ≤ e
    · rwa [hrange.mpr ⟨hin, hhi⟩] at his
    · have hw := hlo.resolve_left hin
      rw [if_pos hw] at his
      rwa [if_pos (by omega)]

/-- The handler refuses and changes nothing, or the key gets the value and this deadline, and is not
there if the deadline is not in the future. -/
def SetExact (key : Sds) (val : V) (deadline now : ℤ) (db : Db V) (r : Option (Db V) × SetReply) :
    Prop :=
  (∃ msg, r = (some db, .error msg)) ∨
    ∃ db', r = (some db', .ok) ∧
      if deadline ≤ now then
        db'.Is (update db.dict.get key none) (update db.expires.get key none)
      else db'.Is (update db.dict.get key (some val))
        (update db.expires.get key (some deadline))

/-- NX and XX do not keep the handler from storing the value. -/
def SetFlags.Allow (flags : SetFlags) (key : Sds) (now : ℤ) (db : Db V) : Prop :=
  (flags.nx = true → ¬ db.Live key now) ∧ (flags.xx = true → db.Live key now)

theorem setUnderLock_exact (h : db.Ok) {flags : SetFlags}
    (hallow : flags.Allow key now db) (val : V) (ms : ℤ) :
    ∃ db', setUnderLock .master flags key val (some ms) now db = (some db', .ok) ∧
      db'.Is (update db.dict.get key (some val))
        (update db.expires.get key (some (wrap (now + ms)))) := by
  have hfound := h.lookupKeyWrite_isSome key now
  have hgo : ¬ ((flags.nx && (lookupKeyWrite .master db key now).2.isSome ||
      flags.xx && (lookupKeyWrite .master db key now).2.isNone) = true) := by
    simp only [Bool.or_eq_true, Bool.and_eq_true, hfound, not_or, not_and]
    refine ⟨hallow.1, fun hxx hnone => ?_⟩
    have := hfound.mpr (hallow.2 hxx)
    rw [isNone_iff_eq_none.mp hnone] at this
    exact Bool.noConfusion this
  have hrest := h.expireIfNeeded_rest key now
  obtain ⟨db1, hset⟩ := hrest.ok.setKey_some key val now
  have his := hrest.ok.setKey_is hset
  have hkey : (db1.dict.get key).isSome = true := by
    rw [his.dict, update_self]
    rfl
  obtain ⟨db2, hexp, hres⟩ := his.ok.setExpire_some hkey (wrap (now + ms))
  refine ⟨db2, ?_, ?_⟩
  · unfold setUnderLock
    rw [if_neg hgo]
    dsimp only [lookupKeyWrite]
    rw [hset, bind_some, hexp]
  · rwa [his.dict, his.expires, hrest.dict, update_idem, hrest.expires] at hres

theorem setExact_iff (h : db.Ok) (hnow : llongMin ≤ now) {flags : SetFlags}
    (hallow : flags.Allow key now db)
    (harg : getLongLong expire = some arg) (unit : TimeUnit) (name : Sds) (val : V) :
    SetExact key val (exactDeadline now arg unit) now db
        (setGenericCommand .master name ⟨flags, some expire, unit⟩ key val now db) ↔
      arg ≤ 0 ∨ exactDeadline now arg unit ≤ llongMax := by
  by_cases hpos : arg ≤ 0
  · obtain ⟨e, he⟩ := expireMillis_nonpos name harg hpos unit
    refine iff_of_true (.inl ⟨e, ?_⟩) (.inl hpos)
    simp only [setGenericCommand, he]
  · obtain ⟨ms, hms, hw⟩ := expireMillis_pos name harg (by omega) unit now
    obtain ⟨db', hrun, his⟩ := setUnderLock_exact h hallow val ms
    have hfuture : now < exactDeadline now arg unit := by
      unfold exactDeadline
      cases unit <;> simp only [TimeUnit.millis] <;> omega
    simp only [setGenericCommand, hms, hrun, SetExact, Prod.mk.injEq, reduceCtorEq, and_false,
      exists_false, false_or, not_le.mpr hfuture, if_false, hpos]
    rw [hw] at his
    constructor
    · rintro ⟨db1, ⟨heq, -⟩, hexact⟩
      cases heq
      have hsame := congrFun (his.expires.symm.trans hexact.expires) key
      simp only [update_self, some.injEq] at hsame
      exact (wrap_eq_self_iff.mp hsame).2
    · intro hhi
      rw [wrap_eq_self_iff.mpr ⟨by omega, hhi⟩] at his
      exact ⟨db', ⟨rfl, trivial⟩, his⟩

/-- For every clock and every argument of 64 bits, EXPIRE and its variants act on the exact deadline
if and only if it does not exceed 64 bits, or falls below them and is taken for one in the past; SET
with a time to live and its variants, if and only if the argument is refused or the deadline does
not exceed 64 bits. -/
theorem deadlines_exact_iff (h : db.Ok) (key : Sds) (hnow : llongMin ≤ now ∧ now ≤ llongMax)
    (harg : getLongLong param = some arg) (unit : TimeUnit) :
    (∀ relative : Bool, db.Live key now →
      (ExpireExact key (exactDeadline (if relative then now else 0) arg unit) now db
          (expireGenericCommand .master key param (if relative then now else 0) unit now db) ↔
        exactDeadline (if relative then now else 0) arg unit ≤ llongMax ∧
          (llongMin ≤ exactDeadline (if relative then now else 0) arg unit ∨
            wrap (exactDeadline (if relative then now else 0) arg unit) ≤ now))) ∧
    ∀ (flags : SetFlags) (name : Sds) (val : V), flags.Allow key now db →
      (SetExact key val (exactDeadline now arg unit) now db
          (setGenericCommand .master name ⟨flags, some param, unit⟩ key val now db) ↔
        arg ≤ 0 ∨ exactDeadline now arg unit ≤ llongMax) :=
  ⟨fun _ hlive => expireExact_iff h hnow hlive harg _ unit,
    fun _ name val hallow => setExact_iff h hnow.1 hallow harg unit name val⟩

end

/-! A database with one key, which has no deadline. -/

def oneKey : Db ℕ := (@setKey ℕ oneDb.toHashFn .master false redisDbInit [107] 7 1).getD redisDbInit

theorem oneKey_is : @Db.Is ℕ oneDb.toHashFn oneKey (update (fun _ => none) [107] (some 7))
    (update (fun _ => none) [107] none) := by
  let _ := oneDb
  obtain ⟨db', hset⟩ := (redisDbInit_is (V := ℕ)).ok.setKey_some [107] 7 1
  have his := redisDbInit_is.ok.setKey_is hset
  have heq : oneKey = db' := by rw [oneKey, hset, getD_some]
  rw [heq]
  exact his

theorem oneKey_live : oneKey.Live [107] 1 := by
  let _ := oneDb
  refine ⟨by rfl, fun t ht => ?_⟩
  rw [oneKey_is.expires] at ht
  simp at ht

theorem deadlines_exact_hundred :
    @ExpireExact ℕ oneDb.toHashFn [107] 100001 1 oneKey
        (@expireGenericCommand ℕ oneDb.toHashFn .master [107] [49, 48, 48] 1 .seconds 1 oneKey) ∧
      @SetExact ℕ oneDb.toHashFn [107] 8 100001 1 oneKey
        (@setGenericCommand ℕ oneDb.toHashFn .master (ascii "setex".toList)
          ⟨.none, some [49, 48, 48], .seconds⟩ [107] 8 1 oneKey) := by
  let _ := oneDb
  have hallow : SetFlags.none.Allow [107] 1 oneKey := ⟨Bool.noConfusion, Bool.noConfusion⟩
  have harg : getLongLong [49, 48, 48] = some 100 := by decide
  have hnow : llongMin ≤ 1 ∧ 1 ≤ llongMax := by decide
  obtain ⟨hexpire, hset⟩ := deadlines_exact_iff oneKey_is.ok [107] hnow harg .seconds
  exact ⟨(hexpire true oneKey_live).mpr (by decide), (hset .none _ 8 hallow).mpr (by decide)⟩

/-- EXPIRE with the largest time to live deletes the key. -/
theorem expire_overflow_deletes :
    (1 : ℤ) < exactDeadline 1 9223372036854775807 .seconds ∧
      (let _ := oneDb
       let r := expireGenericCommand .master [107] (ascii "9223372036854775807".toList) 1 .seconds 1
        oneKey
       (lookupKey oneKey [107], r.1.map (lookupKey · [107]), r.2)) =
         (some 7, some none, .cone) := by
  decide +kernel

end Vire
