import Vire.Dict.Proofs.Run
import Vire.Keyspace.Db

/-!
# A database is two maps

A database that is in order stands for a map from keys to values and a map from keys to deadlines,
and what each function of the API does is said in terms of these.
-/

namespace Vire

open Function Option

variable {V : Type} [HashFn] {db db' : Db V} {key : Sds} {val : V}

/-- The invariant of a database: both dictionaries are in order, and a key with a deadline has a
value. -/
structure Db.Ok (db : Db V) : Prop where
  dict : db.dict.WF
  expires : db.expires.WF
  subset : ∀ key, (db.expires.get key).isSome = true → (db.dict.get key).isSome = true

structure Db.Is (db : Db V) (vals : Sds → Option V) (deadlines : Sds → Option ℤ) : Prop where
  ok : db.Ok
  dict : db.dict.get = vals
  expires : db.expires.get = deadlines

theorem Db.Ok.is (h : db.Ok) : db.Is db.dict.get db.expires.get := ⟨h, rfl, rfl⟩

theorem redisDbInit_is : (redisDbInit : Db V).Is (fun _ => none) fun _ => none :=
  ⟨⟨Dict.wf_create, Dict.wf_create, fun _ h => h⟩, rfl, rfl⟩

section

variable (h : db.Ok)

include h

theorem Db.Ok.expires_none (hkey : db.dict.get key = none) :
    db.expires.get key = none := by
  by_contra hne
  have := h.subset key (isSome_iff_ne_none.mpr hne)
  rw [hkey] at this
  exact Bool.noConfusion this

theorem Db.Ok.lookupKey_eq (key : Sds) : lookupKey db key = db.dict.get key :=
  h.dict.dictFind_map key

theorem Db.Ok.getExpire_eq (key : Sds) :
    getExpire db key = (db.expires.get key).getD (-1) := by
  rw [getExpire, ← h.expires.dictFind_map]
  split_ifs with h0
  · have hnil : db.expires.entries = [] := List.length_eq_zero_iff.mp (h.expires.size_eq ▸ h0)
    simp [dictFind_eq h.expires, hnil, assoc_nil]
  · rcases dictFind db.expires key with _ | e <;> rfl

theorem Db.Ok.checkIfExpired_eq (key : Sds) (now : ℤ) :
    checkIfExpired db key now = true ↔ ∃ t, db.expires.get key = some t ∧ 0 < t ∧ t < now := by
  simp only [checkIfExpired, h.getExpire_eq, Bool.and_eq_true, decide_eq_true_eq]
  rcases db.expires.get key with _ | t <;> simp

theorem Db.Ok.dbAdd_is (hadd : dbAdd db key val = some db') :
    db.dict.get key = none ∧
      db'.Is (update db.dict.get key (some val)) db.expires.get := by
  simp only [dbAdd, dictAdd_flag h.dict] at hadd
  split_ifs at hadd with hnone
  have hkey : db.dict.get key = none := by simpa using hnone
  cases hadd
  refine ⟨hkey, ⟨(dictAdd_spec h.dict key val).1, h.expires, fun x hx => ?_⟩,
    get_dictAdd h.dict key val hkey, rfl⟩
  rw [get_dictAdd h.dict key val hkey]
  by_cases hxk : x = key
  · subst hxk
    simp
  · simpa [update_of_ne hxk] using h.subset x hx

theorem Db.Ok.put (hkey : (db.dict.get key).isSome = true) {d : Dict Sds V}
    (hw : d.WF) (hget : d.get = update db.dict.get key (some val)) :
    Db.Is { db with dict := d } (update db.dict.get key (some val)) db.expires.get := by
  refine ⟨⟨hw, h.expires, fun x hx => ?_⟩, hget, rfl⟩
  rw [hget]
  by_cases hxk : x = key
  · subst hxk
    simp
  · simpa [update_of_ne hxk] using h.subset x hx

theorem Db.Ok.dbOverwrite_is (hover : dbOverwrite db key val = some db') :
    (db.dict.get key).isSome = true ∧
      db'.Is (update db.dict.get key (some val)) db.expires.get := by
  unfold dbOverwrite at hover
  rw [h.dict.dictFind_isSome] at hover
  split_ifs at hover with hkey
  cases hover
  have hget := get_dictReplace h.dict key val
  exact ⟨hkey, h.put hkey hget.1 hget.2⟩

theorem Db.Ok.dbDelete_is (key : Sds) :
    (dbDelete db key).1.Is (update db.dict.get key none)
        (update db.expires.get key none) ∧
      (dbDelete db key).2 = (db.dict.get key).isSome := by
  obtain ⟨hw, hget, hret⟩ := get_dictDelete h.dict key
  have hexp : (dbDelete db key).1.expires.WF ∧
      (dbDelete db key).1.expires.get = update db.expires.get key none := by
    unfold Vire.dbDelete
    split_ifs with h0
    · exact ⟨(get_dictDelete h.expires key).1, (get_dictDelete h.expires key).2.1⟩
    · have hnil : db.expires.entries = [] :=
        List.length_eq_zero_iff.mp (h.expires.size_eq ▸ Nat.eq_zero_of_not_pos h0)
      refine ⟨h.expires, ?_⟩
      have hnone : db.expires.get key = none := by simp [Dict.get, hnil, assoc_nil]
      rw [← hnone, update_eq_self]
  refine ⟨⟨⟨hw, hexp.1, fun x hx => ?_⟩, hget, hexp.2⟩, ?_⟩
  · rw [hexp.2] at hx
    change ((dictDelete db.dict key).1.get x).isSome = true
    rw [hget]
    by_cases hxk : x = key
    · subst hxk
      simp at hx
    · rw [update_of_ne hxk] at hx ⊢
      exact h.subset x hx
  · change (dictDelete db.dict key).2.isSome = _
    rw [← hret, isSome_map]

theorem Db.Ok.setExpire_is {t : ℤ} (hset : setExpire db key t = some db') :
    (db.dict.get key).isSome = true ∧
      db'.Is db.dict.get (update db.expires.get key (some t)) := by
  unfold setExpire at hset
  rw [dictFind_eq h.dict, map_eq_some_iff] at hset
  obtain ⟨e, he, rfl⟩ := hset
  have hkey : (db.dict.get key).isSome = true := by rw [Dict.get_isSome, he]; rfl
  obtain ⟨hw, hget⟩ := get_dictReplaceRaw h.expires e.1 t
  have htext : text e.1 = key := (mem_of_assoc he).2
  rw [htext] at hget
  refine ⟨hkey, ⟨h.dict, hw, fun x hx => ?_⟩, rfl, hget⟩
  by_cases hxk : x = key
  · rw [hxk]
    exact hkey
  · rw [hget, update_of_ne hxk] at hx
    exact h.subset x hx

theorem Db.Ok.removeExpire_is {b : Bool} (hrem : removeExpire db key = some (db', b)) :
    (db.dict.get key).isSome = true ∧
      db'.Is db.dict.get (update db.expires.get key none) := by
  unfold removeExpire at hrem
  rw [h.dict.dictFind_isSome] at hrem
  split_ifs at hrem with hkey
  cases hrem
  obtain ⟨hw, hget, -⟩ := get_dictDelete h.expires key
  refine ⟨hkey, ⟨h.dict, hw, fun x hx => ?_⟩, rfl, hget⟩
  rw [hget] at hx
  by_cases hxk : x = key
  · rw [hxk]
    exact hkey
  · rw [update_of_ne hxk] at hx
    exact h.subset x hx

theorem Db.Ok.same {d : Dict Sds V} {e : Dict Sds ℤ} (hd : Dict.Same db.dict d)
    (he : Dict.Same db.expires e) : Db.Is ⟨d, e⟩ db.dict.get db.expires.get := by
  refine ⟨⟨hd.wf, he.wf, fun x hx => ?_⟩, hd.get_eq, he.get_eq⟩
  rw [he.get_eq] at hx
  rw [hd.get_eq]
  exact h.subset x hx

end

theorem resizeIfNeeded_same {K V : Type} [Text K] {d : Dict K V} (hw : d.WF) :
    Dict.Same d (resizeIfNeeded d) := by
  unfold resizeIfNeeded
  split_ifs
  · rcases h : dictResize d with _ | d'
    · exact hw.same
    · exact dictResize_same hw h
  · exact hw.same

omit [HashFn] in
theorem Dict.Sizes.resizeIfNeeded {K V : Type} {d : Dict K V} (h : d.Small) :
    (resizeIfNeeded d).Small := by
  unfold Vire.resizeIfNeeded
  split_ifs
  · cases hd : dictResize d with
    | none => exact h
    | some d' => exact h.resize hd
  · exact h

theorem expireIfNeeded_master (db : Db V) (key : Sds) (now : ℤ) :
    expireIfNeeded .master db key now =
      if 0 ≤ getExpire db key ∧ getExpire db key < now then dbDelete db key else (db, false) := by
  simp only [expireIfNeeded, Role.master, Bool.false_eq_true, if_false]
  split_ifs <;> first | rfl | omega

theorem Db.Ok.expireIfNeeded_is (h : db.Ok) (key : Sds) (now : ℤ) :
    (expireIfNeeded .master db key now).1.Is db.dict.get db.expires.get ∧
        ¬ (0 ≤ getExpire db key ∧ getExpire db key < now) ∨
      (expireIfNeeded .master db key now).1.Is (update db.dict.get key none)
          (update db.expires.get key none) ∧
        0 ≤ getExpire db key ∧ getExpire db key < now := by
  rw [expireIfNeeded_master]
  split_ifs with hc
  · exact .inr ⟨(h.dbDelete_is key).1, hc⟩
  · exact .inl ⟨h.is, hc⟩

/-- `db₁` differs from `db` at most in the key. -/
structure Db.Rest (db : Db V) (key : Sds) (db₁ : Db V) : Prop where
  ok : db₁.Ok
  dict : ∀ w, update db₁.dict.get key w = update db.dict.get key w
  expires : ∀ w, update db₁.expires.get key w = update db.expires.get key w

theorem Db.Ok.rest (h : db.Ok) (key : Sds) : db.Rest key db := ⟨h, fun _ => rfl, fun _ => rfl⟩

theorem Db.Ok.expireIfNeeded_rest (h : db.Ok) (key : Sds) (now : ℤ) :
    db.Rest key (expireIfNeeded .master db key now).1 := by
  rcases h.expireIfNeeded_is key now with ⟨his, -⟩ | ⟨his, -⟩
  · exact ⟨his.ok, fun w => by rw [his.dict], fun w => by rw [his.expires]⟩
  · exact ⟨his.ok, fun w => by rw [his.dict, update_idem],
      fun w => by rw [his.expires, update_idem]⟩

theorem Db.Ok.setKey_is (h : db.Ok) {expired : Bool} {now : ℤ}
    (hset : setKey .master expired db key val now = some db') :
    db'.Is (update db.dict.get key (some val))
      (update db.expires.get key none) := by
  obtain ⟨db1, hdb1, hrest⟩ : ∃ db1, db1 =
      (if expired then (expireIfNeeded .master db key now).1 else db) ∧ db.Rest key db1 := by
    refine ⟨_, rfl, ?_⟩
    split_ifs
    · exact h.expireIfNeeded_rest key now
    · exact h.rest key
  simp only [setKey, ← hdb1, bind_eq_some_iff, map_eq_some_iff] at hset
  obtain ⟨db2, hstore, ⟨db3, b⟩, hrem, rfl⟩ := hset
  have hdb2 : db2.Is (update db1.dict.get key (some val)) db1.expires.get := by
    split_ifs at hstore
    · exact (hrest.ok.dbAdd_is hstore).2
    · exact (hrest.ok.dbOverwrite_is hstore).2
  obtain ⟨-, his⟩ := hdb2.ok.removeExpire_is hrem
  exact ⟨his.ok, by rw [his.dict, hdb2.dict, hrest.dict],
    by rw [his.expires, hdb2.expires, hrest.expires]⟩

end Vire
