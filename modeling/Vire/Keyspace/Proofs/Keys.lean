import Vire.Dict.Proofs.Iterator
import Vire.Keyspace.Handler.Keys
import Vire.Keyspace.Proofs.Handler
import Vire.Keyspace.Proofs.RandomKey

/-!
# What KEYS sends and deletes

While the loop goes through a database, the keys that are gone are the expired ones among those that
were visited.  At the end the reply has the visited keys that were not deleted.
-/

namespace Vire

open Function List Option Logic Prog

theorem Dict.WF.recount {K V : Type} [Text K] [HashFn] {d : Dict K V} (hw : d.WF) (k : ℕ) :
    Dict.WF { d with iterators := k } := ⟨hw.ht0, hw.ht1, hw.nodup, hw.idle, hw.tables, hw.moved⟩

section

variable [Host]

open Handler

def visits (p key : Sds) : Bool := allkeys p || Host.stringmatch p key

def past (db : Db Value) (now : ℤ) (key : Sds) :
    Bool := decide (0 ≤ getExpire db key ∧ getExpire db key < now)

def sent (p : Sds) (now : ℤ) (db : Db Value) (es : List (Sds × Value)) : List Sds :=
  (es.map Prod.fst).filter fun x => visits p x && !past db now x

/-- KEYS deletes the key when it comes to it. -/
def drops (p : Sds) (now : ℤ) (db : Db Value) (key : Sds) :
    Prop := visits p key = true ∧ past db now key = true

/-- `db'` is `db` without the keys that satisfy `P`. -/
structure Db.Without (P : Sds → Prop) (db db' : Db Value) : Prop where
  gone : ∀ key, P key → db'.dict.get key = none ∧ db'.expires.get key = none
  kept : ∀ key, ¬P key → db'.dict.get key = db.dict.get key ∧ db'.expires.get key =
    db.expires.get key

structure Purged (P : Sds → Prop) (db₀ db : Db Value) : Prop extends Db.Without P db₀ db where
  ok : db.Ok
  iterators : db.expires.iterators = db₀.expires.iterators

/-- The loop is at `di`: it still has to come to the keys of `es`, and what it drops is gone of the
others. -/
structure KeysAt (p : Sds) (now : ℤ) (db₀ : Db Value) (es : List (Sds × Value)) (di : DictIterator)
    (db : Db Value) :
    Prop extends Purged (fun x => x ∉ es.map Prod.fst ∧ drops p now db₀ x) db₀ db where
  left : Left db.dict di es
  counted : (db.dict.entered di).iterators = db₀.dict.iterators + 1

section

variable {p : Sds} {now : ℤ} {P P' : Sds → Prop} {db₀ db db' : Db Value} {es : List (Sds × Value)}
  {e : Sds × Value} {di : DictIterator} {key : Sds}

theorem Db.Ok.keysAt (h : db₀.Ok) (p : Sds) (now : ℤ) :
    KeysAt p now db₀ db₀.dict.entries dictGetSafeIterator db₀ := by
  have hnone : ∀ x, x ∉ db₀.dict.entries.map Prod.fst → db₀.dict.get x = none := fun x hx =>
    Dict.get_eq_none.mpr (assoc_eq_none.mpr hx)
  refine ⟨⟨⟨fun x hx => ⟨hnone x hx.1, ?_⟩, fun _ _ => ⟨rfl, rfl⟩⟩, h, rfl⟩, left_start _, rfl⟩
  by_contra hsome
  have := h.subset x (isSome_iff_ne_none.mpr hsome)
  rw [hnone x hx.1] at this
  cases this

theorem dbDelete_iterators (h : db.Ok) (key : Sds) :
    (dbDelete db key).1.dict.iterators = db.dict.iterators ∧
      (dbDelete db key).1.expires.iterators = db.expires.iterators := by
  refine ⟨(dictDelete_spec h.dict key).2.1, ?_⟩
  unfold dbDelete
  split_ifs
  · exact (dictDelete_spec h.expires key).2.1
  · rfl

namespace Purged

section

variable (h : Purged P db₀ db)

include h

theorem congr (hP : ∀ x, P' x ↔ P x) : Purged P' db₀ db := by
  obtain rfl : P' = P := funext fun x => propext (hP x)
  exact h

theorem past_eq (h0 : db₀.Ok) (hkey : ¬P key) :
    past db now key = past db₀ now key := by
  rw [past, past, h.ok.getExpire_eq, h0.getExpire_eq, (h.kept key hkey).2]

theorem recount (k : ℕ) :
    Purged P db₀ { db with dict := { db.dict with iterators := k } } :=
  ⟨⟨h.gone, h.kept⟩, ⟨h.ok.dict.recount k, h.ok.expires, h.ok.subset⟩, h.iterators⟩

theorem entered (di : DictIterator) :
    Purged P db₀ { db with dict := db.dict.entered di } := by
  unfold Dict.entered
  split_ifs
  · exact h.recount _
  · exact h

theorem delete (hP : ∀ x, P' x ↔ x = key ∨ P x) :
    Purged P' db₀ (dbDelete db key).1 := by
  obtain ⟨his, -⟩ := h.ok.dbDelete_is key
  refine ⟨⟨fun x hx => ?_, fun x hx => ?_⟩, his.ok,
    (dbDelete_iterators h.ok key).2.trans h.iterators⟩
  · rw [his.dict, his.expires]
    by_cases hk : x = key
    · rw [hk, update_self, update_self]
      exact ⟨rfl, rfl⟩
    · rw [update_of_ne hk, update_of_ne hk]
      exact h.gone x (((hP x).mp hx).resolve_left hk)
  · obtain ⟨hk, hPx⟩ := not_or.mp (mt (hP x).mpr hx)
    rw [his.dict, his.expires, update_of_ne hk, update_of_ne hk]
    exact h.kept x hPx

end

end Purged

theorem KeysAt.step (h : KeysAt p now db₀ (e :: es) di db) (h0 : db₀.Ok)
    (hdb : db' = { db with dict := (dictNext db.dict di).2.2 }) :
    (dictNext db.dict di).1 = some e.1 ∧ past db' now e.1 = past db₀ now e.1 ∧
      (dbDelete db' e.1).2 = true ∧
      (drops p now db₀ e.1 → KeysAt p now db₀ es (dictNext db.dict di).2.1 (dbDelete db' e.1).1) ∧
      (¬drops p now db₀ e.1 → KeysAt p now db₀ es (dictNext db.dict di).2.1 db') := by
  obtain ⟨hnext, hused, hdict, hleft⟩ := dictNext_yields h.ok.dict h.left
  have hpurged := h.toPurged.entered di
  rw [hdict] at hdb
  rw [← hdb] at hpurged
  have hsub := h.left.sublist h.ok.dict
  have hrest : e.1 ∉ es.map Prod.fst :=
    (nodup_cons.mp ((hsub.map Prod.fst).nodup h.ok.dict.nodup)).1
  have hkept : ¬(e.1 ∉ (e :: es).map Prod.fst ∧ drops p now db₀ e.1) := fun hx => hx.1 mem_cons_self
  have hcounted : ∀ d : Dict Sds Value, d.entered (dictNext db.dict di).2.1 = d := fun d => by
    rw [Dict.entered, hused, if_neg Bool.false_ne_true]
  refine ⟨hnext, hpurged.past_eq h0 hkept, ?_, fun hkey => ⟨hpurged.delete fun x => ?_, ?_, ?_⟩,
    fun hkey => ⟨hpurged.congr fun x => ?_, ?_, ?_⟩⟩
  · have hsome := Dict.get_isSome_of_mem (hsub.subset mem_cons_self)
    rw [text_sds, (h.kept e.1 hkept).1, ← (hpurged.kept e.1 hkept).1] at hsome
    rw [(hpurged.ok.dbDelete_is e.1).2]
    exact hsome
  · rw [map_cons, mem_cons]
    by_cases hx : x = e.1 <;> simp [hx, hrest, hkey]
  · rw [hdb]
    exact hleft.dictDelete (by rw [h.counted]; exact Nat.succ_ne_zero _) hrest
  · rw [hcounted, (dbDelete_iterators hpurged.ok e.1).1, hdb, h.counted]
  · rw [map_cons, mem_cons]
    by_cases hx : x = e.1 <;> simp [hx, hkey]
  · rw [hdb]
    exact hleft
  · rw [hcounted, hdb, h.counted]

theorem KeysAt.done (h : KeysAt p now db₀ [] di db)
    (hdb : db' = { db with dict := (dictNext db.dict di).2.2 }) :
    (dictNext db.dict di).1 = none ∧ (dictNext db.dict di).2.1.unused = false ∧
      Purged (drops p now db₀) db₀ db' ∧ db'.dict.iterators = db₀.dict.iterators + 1 := by
  obtain ⟨hnext, hused, hdict⟩ := dictNext_yields h.ok.dict h.left
  rw [hdb, hdict]
  exact ⟨hnext, hused, (h.toPurged.entered di).congr fun x => by simp, h.counted⟩

end

/-- The rest of the server is as before, but for memory. -/
structure Only (i : ℕ) (s s' : Server) : Prop where
  now : s'.now = s.now
  other : ∀ j, j ≠ i → s'.dbs j = s.dbs j

variable {i : ℕ}

omit [Host] in
theorem Only.trans {s s1 s2 : Server} (h : Only i s s1) (h' : Only i s1 s2) : Only i s s2 :=
  ⟨h'.now.trans h.now, fun j hj => (h'.other j hj).trans (h.other j hj)⟩

omit [Host] in
theorem Only.heap {s s' : Server} (h : Only i s s') (heap : Heap) :
    Only i s { s' with heap := heap } :=
  ⟨h.now, h.other⟩

section

variable {c : Client} {s : Server} {p : Sds} {db₀ : Db Value} {α : Type}

omit [Host] in
theorem wp_writing {f : ℕ → Kv → α × Kv} {Q : Post α}
    (hQ : ∀ s', Only c.db s s' → s'.dbs c.db = (f s.now ⟨s.heap, s.dbs c.db⟩).2.db →
      Q (f s.now ⟨s.heap, s.dbs c.db⟩).1 c s') : (writing f).Wp c s Q :=
  hQ _ ⟨rfl, fun _ hj => update_of_ne hj _ _⟩ (update_self _ _ _)

omit [Host] in
theorem wp_reading {f : ℕ → Db Value → α} {Q : Post α} :
    (reading f).Wp c s Q ↔ Q (f s.now (s.dbs c.db)) c s := by
  rw [reading, wp_actP]
  simp only [Machine.perform, update_eq_self]

theorem wp_expireIfNeeded {key : Sds} {Q : Post Bool}
    (hkeep : past (s.dbs c.db) s.now key = false → Q false c s)
    (hdel : past (s.dbs c.db) s.now key = true → ∀ s', Only c.db s s' →
      s'.dbs c.db = (dbDelete (s.dbs c.db) key).1 → Q (dbDelete (s.dbs c.db) key).2 c s') :
    (Handler.expireIfNeeded key).Wp c s Q := by
  by_cases hpast : 0 ≤ getExpire (s.dbs c.db) key ∧ getExpire (s.dbs c.db) key < s.now
  · refine wp_writing ?_
    simp only [expireIfNeededKv]
    rw [if_neg (by omega)]
    exact hdel (decide_eq_true hpast)
  · rw [Handler.expireIfNeeded, writing, wp_actP]
    simp only [Machine.perform, expireIfNeededKv]
    rw [if_pos (by omega)]
    simp only [update_eq_self]
    exact hkeep (decide_eq_false hpast)

structure KeysDone (p : Sds) (now : ℤ) (db₀ : Db Value) (es : List (Sds × Value))
    (numkeys : ℕ) (c : Client)
    (s : Server) (r : DictIterator × ℕ) (c' : Client) (s' : Server) : Prop where
  client : c' = { c with out := c.out ++ (sent p now db₀ es).map .bulk }
  count : r.2 = numkeys + (sent p now db₀ es).length
  only : Only c.db s s'
  purged : Purged (drops p now db₀) db₀ (s'.dbs c.db)
  used : r.1.unused = false
  iterators : (s'.dbs c.db).dict.iterators = db₀.dict.iterators + 1

theorem KeysDone.cons {now : ℤ} {e : Sds × Value} {es : List (Sds × Value)} {numkeys numkeys1 : ℕ}
    {c1 c' : Client} {s1 s' : Server} {r : DictIterator × ℕ}
    (h : KeysDone p now db₀ es numkeys1 c1 s1 r c' s')
    (hc : c1 = { c with out := c.out ++ (sent p now db₀ [e]).map .bulk })
    (hcount : numkeys1 = numkeys + (sent p now db₀ [e]).length) (honly : Only c.db s s1) :
    KeysDone p now db₀ (e :: es) numkeys c s r c' s' := by
  have hsent : sent p now db₀ (e :: es) = sent p now db₀ [e] ++ sent p now db₀ es := by
    rw [sent, sent, sent, ← filter_append]
    rfl
  subst hc
  refine ⟨?_, ?_, honly.trans h.only, h.purged, h.used, h.iterators⟩
  · rw [h.client, hsent, map_append, append_assoc]
  · rw [h.count, hcount, hsent, length_append, Nat.add_assoc]

theorem keysLoop_wp (h0 : db₀.Ok) (now : ℤ) (n : ℕ) :
    ∀ (es : List (Sds × Value)) (di : DictIterator) (numkeys : ℕ) (c : Client) (s : Server),
      s.now = now → KeysAt p now db₀ es di (s.dbs c.db) → es.length < n →
      (keysLoop p n di numkeys).Wp c s (KeysDone p now db₀ es numkeys c s) := by
  induction n with
  | zero => exact fun es _ _ _ _ _ _ hn => absurd hn (Nat.not_lt_zero _)
  | succ n ih =>
    intro es di numkeys c s hnow h hn
    rw [keysLoop, wp_bind]
    refine wp_writing fun s1 honly hdb => ?_
    dsimp only at hdb ⊢
    cases es with
    | nil =>
      obtain ⟨hnext, hused, hpurged, hcount⟩ := h.done hdb
      rw [hnext]
      exact ⟨by simp [sent], by simp [sent], honly, hpurged, hused, hcount⟩
    | cons e es =>
      obtain ⟨hnext, hpast, hdeleted, hgone, hstays⟩ := h.step h0 hdb
      have hlen : es.length < n := Nat.lt_of_succ_lt_succ hn
      have hnow1 : s1.now = now := honly.now.symm ▸ hnow
      rw [hnext]
      dsimp only
      rw [show (allkeys p || Host.stringmatch p e.1) = visits p e.1 from rfl]
      by_cases hvis : visits p e.1 = true
      · rw [if_pos hvis, wp_bind, wp_inMemory, wp_bind, (createStringObject_denotes e.1 _).text_eq]
        refine wp_expireIfNeeded (fun hkeep => ?_) fun hdel s2 honly2 hdb2 => ?_
        · have hkeep : past db₀ now e.1 = false := by
            rw [← hpast, ← hnow1]
            exact hkeep
          have hsent : sent p now db₀ [e] = [e.1] := by simp [sent, hvis, hkeep]
          have hat := hstays fun h => Bool.false_ne_true (hkeep.symm.trans h.2)
          rw [wp_bind, wp_addReplies, wp_bind, wp_inMemory]
          refine (ih es _ (numkeys + 1) _ _ (by exact hnow1) (by exact hat) hlen).mono fun r
            c' s' hdone =>
            hdone.cons ?_ ?_ (honly.heap _) <;> simp [hsent]
        · have hdel : past db₀ now e.1 = true := by
            rw [← hpast, ← hnow1]
            exact hdel
          have hsent : sent p now db₀ [e] = [] := by simp [sent, hdel]
          have honly := (honly.heap _).trans honly2
          have hat := hgone ⟨hvis, hdel⟩
          rw [← show s2.dbs c.db = _ from hdb2] at hat
          rw [hdeleted, wp_bind, wp_addReplies, wp_bind, wp_inMemory]
          refine (ih es _ numkeys _ _ (by rw [honly.now, hnow]) (by exact hat) hlen).mono
            fun r c' s' hdone => hdone.cons ?_ ?_ (honly.heap _) <;> simp [hsent]
      · have hsent : sent p now db₀ [e] = [] := by simp [sent, hvis]
        rw [if_neg hvis]
        refine (ih es _ numkeys c s1 hnow1 (hstays fun h => hvis h.1) hlen).mono fun r
          c' s' hdone =>
          hdone.cons ?_ ?_ honly <;> simp [hsent]

/-- The keys that are sent from the `n` internal databases from `idx` on. -/
def sentFrom (p : Sds) (now : ℤ) (dbs : ℕ → Db Value) (dictid idx n : ℕ) : List Sds :=
  (range' idx n).flatMap fun i =>
    sent p now (fetchInternalDbById dbs dictid i) (fetchInternalDbById dbs dictid i).dict.entries

/-- The `n` internal databases from `idx` on have been gone through. -/
structure PurgedFrom (p : Sds) (now : ℤ) (dictid idx n : ℕ) (dbs dbs' : ℕ → Db Value) : Prop where
  purged : ∀ i, idx ≤ i → i < idx + n → Purged (drops p now (fetchInternalDbById dbs dictid i))
    (fetchInternalDbById dbs dictid i) (fetchInternalDbById dbs' dictid i)
  iterators : ∀ j, (dbs' j).dict.iterators = (dbs j).dict.iterators
  other : ∀ j, (∀ i, idx ≤ i → i < idx + n → j ≠ i + dictid * Host.dbinum) → dbs' j = dbs j

theorem sentFrom_congr {now : ℤ} {dbs dbs' : ℕ → Db Value} {dictid idx n : ℕ}
    (h : ∀ i, idx ≤ i → fetchInternalDbById dbs' dictid i = fetchInternalDbById dbs dictid i) :
    sentFrom p now dbs' dictid idx n = sentFrom p now dbs dictid idx n := by
  refine flatMap_congr fun i hi => ?_
  rw [h i (mem_range'_1.mp hi).1]

theorem keysDbs_wp (n : ℕ) :
    ∀ (idx numkeys : ℕ) (c : Client) (s : Server),
      (∀ i, idx ≤ i → i < idx + n → (fetchInternalDbById s.dbs c.dictid i).Ok) →
      (keysDbs p n idx numkeys).Wp c s fun r c' s' =>
        c'.out = c.out ++ (sentFrom p s.now s.dbs c.dictid idx n).map .bulk ∧
        r = numkeys + (sentFrom p s.now s.dbs c.dictid idx n).length ∧
        PurgedFrom p s.now c.dictid idx n s.dbs s'.dbs := by
  induction n with
  | zero =>
    intro idx numkeys c s _
    refine ⟨by simp [sentFrom], by simp [sentFrom], ⟨fun i h1 h2 => ?_, fun _ => rfl,
      fun _ _ => rfl⟩⟩
    omega
  | succ n ih =>
    intro idx numkeys c s hok
    have hdb := hok idx le_rfl (by omega)
    rw [keysDbs, wp_bind, Handler.fetchInternalDbById, wp_modifyP, wp_bind, lockDbWrite, wp_lockP,
      wp_bind, wp_reading, wp_bind]
    generalize hi : idx + c.dictid * Host.dbinum = i
    have hdb₀ : fetchInternalDbById s.dbs c.dictid idx = s.dbs i := congrArg s.dbs hi
    rw [hdb₀] at hdb
    refine (keysLoop_wp hdb s.now ((s.dbs i).dict.size + 1) _ dictGetSafeIterator numkeys
      { c with db := i } s rfl
      (hdb.keysAt p s.now) (by rw [← hdb.dict.size_eq]; exact Nat.lt_succ_self _)).mono fun r c1
        s1 hdone => ?_
    obtain rfl := hdone.client
    rw [wp_bind]
    refine wp_writing fun s2 honly2 hdb2 => ?_
    have honly : Only i s s2 := hdone.only.trans honly2
    have hdb2 : s2.dbs i = { s1.dbs i with
        dict := { (s1.dbs i).dict with iterators := (s.dbs i).dict.iterators } } := by
      refine hdb2.trans ?_
      dsimp only
      rw [dictReleaseIterator, hdone.used, if_neg Bool.false_ne_true, hdone.iterators,
        Nat.add_sub_cancel]
    have hlater : ∀ j, idx + 1 ≤ j → fetchInternalDbById s2.dbs c.dictid j =
        fetchInternalDbById s.dbs c.dictid j := fun j hj => honly.other _ (by omega)
    refine (ih (idx + 1) r.2 _ s2 fun j h1 h2 => ?_).mono fun m c' s' ⟨hout, hm, hfrom⟩ => ?_
    · rw [hlater j h1]
      exact hok j (by omega) (by omega)
    · dsimp only at hout hfrom
      rw [honly.now, sentFrom_congr hlater] at hout hm
      have hsplit : sentFrom p s.now s.dbs c.dictid idx (n + 1) =
          sent p s.now (s.dbs i) (s.dbs i).dict.entries ++
            sentFrom p s.now s.dbs c.dictid (idx + 1) n := by
        rw [← hdb₀]
        rfl
      refine ⟨?_, ?_, fun j h1 h2 => ?_, fun j => ?_, fun j hj => ?_⟩
      · rw [hout, hsplit, map_append, append_assoc]
      · rw [hm, hdone.count, hsplit, length_append, Nat.add_assoc]
      · rcases Nat.lt_or_eq_of_le h1 with h1 | rfl
        · have hpurged := hfrom.purged j h1 (by omega)
          rwa [honly.now, hlater j h1] at hpurged
        · have hpurged := hdone.purged.recount (s.dbs i).dict.iterators
          rw [hdb₀, fetchInternalDbById, hi, hfrom.other i fun j h1 _ => by omega, hdb2]
          exact hpurged
      · rw [hfrom.iterators]
        by_cases hj : j = i
        · rw [hj, hdb2]
        · rw [honly.other j hj]
      · rw [hfrom.other j fun i h1 h2 => hj i (by omega) (by omega),
          honly.other j (hi ▸ hj idx le_rfl (by omega))]

theorem countKeys_wp (n : ℕ) :
    ∀ (idx : ℕ) (keysCount : ℤ) (c : Client),
      (countKeys n idx keysCount).Wp c s fun _ c' s' =>
        c'.out = c.out ∧ c'.dictid = c.dictid ∧ s' = s := by
  induction n with
  | zero => exact fun _ _ _ => ⟨rfl, rfl, rfl⟩
  | succ n ih =>
    intro idx keysCount c
    rw [countKeys, wp_bind, Handler.fetchInternalDbById, wp_modifyP, wp_bind, lockDbWrite, wp_lockP,
      wp_bind, wp_reading, wp_bind, unlockDb, wp_unlockP]
    exact ih _ _ _

theorem keysCommand_wp {d : ℕ} {os : List Robj} {name : Sds} (hargs : Args os [name, p])
    (hok : ∀ i, i < Host.dbinum → (fetchInternalDbById s.dbs d i).Ok) :
    (keysCommand 0).Ends (.called d os) s fun out dbs' =>
      out = .multi (sentFrom p s.now s.dbs d 0 Host.dbinum).length ::
        (sentFrom p s.now s.dbs d 0 Host.dbinum).map .bulk ∧
      PurgedFrom p s.now d 0 Host.dbinum s.dbs dbs' := by
  rw [Cmd.Ends, keysCommand, wp_arg, (hargs.getD rfl _).text_eq, wp_bind]
  refine (countKeys_wp Host.dbinum 0 0 _).mono ?_
  rintro count c1 s1 ⟨hout1, hdict1, rfl⟩
  rw [if_neg fun h => h.1 rfl, wp_bind, addDeferredMultiBulkLength, wp_bind, wp_readP, wp_bind,
    wp_addReply, wp_pure, wp_bind]
  refine (keysDbs_wp Host.dbinum 0 0 _ s1 fun i _ hi => ?_).mono ?_
  · rw [hdict1]
    exact hok i (by omega)
  · rintro m c' s' ⟨hout', hm, hfrom⟩
    rw [hdict1] at hout' hm hfrom
    rw [setDeferredMultiBulkLength, wp_modifyP]
    refine ⟨?_, hfrom⟩
    rw [hout', hout1, hm]
    simp

end

def Db.Overdue (db : Db Value) (now : ℤ) (key : Sds) :
    Prop := ∃ t, db.expires.get key = some t ∧ t < now

structure KeysExact (p : Sds) (dictid : ℕ) (now : ℤ) (dbs : ℕ → Db Value) (out : List Reply)
    (dbs' : ℕ → Db Value) :
    Prop where
  sends : ∃ keys : List Sds, out = .multi keys.length :: keys.map .bulk ∧ keys.Nodup ∧
    ∀ key, key ∈ keys ↔ UnexpiredKey dbs dictid now key ∧ Host.stringmatch p key = true
  removes : ∀ i < Host.dbinum, Db.Without
    (fun key => (fetchInternalDbById dbs dictid i).Overdue now key ∧ Host.stringmatch p key = true)
    (fetchInternalDbById dbs dictid i) (fetchInternalDbById dbs' dictid i)
  other : ∀ j, (∀ i < Host.dbinum, j ≠ i + dictid * Host.dbinum) → dbs' j = dbs j
  iterators : ∀ j, (dbs' j).dict.iterators = (dbs j).dict.iterators ∧
    (dbs' j).expires.iterators = (dbs j).expires.iterators

omit [Host] in
theorem allkeys_iff (p : Sds) : allkeys p = true ↔ p = [42] ∨ [42, 0] <+: p := by
  rcases p with _ | ⟨a, _ | ⟨b, p⟩⟩
  · decide
  · have hlong : ¬([42, 0] <+: [a]) := fun h => absurd h.length_le (by simp)
    have hone : allkeys [a] = (a == 42) := Bool.and_true _
    rw [hone, beq_iff_eq, cons.injEq, or_iff_left hlong, and_iff_left rfl]
  · have hshort : a :: b :: p ≠ [42] := fun h => by cases (cons.inj h).2
    have htwo : allkeys (a :: b :: p) = (a == 42 && b == 0) := rfl
    rw [htwo, Bool.and_eq_true, beq_iff_eq, beq_iff_eq, or_iff_right hshort, cons_prefix_cons,
      cons_prefix_cons, and_iff_left nil_prefix, eq_comm, @eq_comm _ b]

theorem stringmatch_of_visits {p key : Sds} (h : visits p key = true)
    (hp : [42, 0] <+: p → Host.stringmatch p key = true) : Host.stringmatch p key = true := by
  rcases Bool.or_eq_true_iff.mp h with hall | hmatch
  · rcases (allkeys_iff p).mp hall with rfl | hzero
    · exact Host.stringmatch_star key
    · exact hp hzero
  · exact hmatch

theorem visits_of_stringmatch {p key : Sds} (h : Host.stringmatch p key = true) :
    visits p key = true := by
  rw [visits, h, Bool.or_true]

/-- KEYS works right: a pattern that begins with `*` and a zero byte accepts every key there is, and
the keys that are accepted have no negative deadline. -/
structure KeysFit (p : Sds) (dictid : ℕ) (dbs : ℕ → Db Value) : Prop where
  accepted : [42, 0] <+: p → ∀ i < Host.dbinum, ∀ key,
    ((fetchInternalDbById dbs dictid i).dict.get key).isSome = true → Host.stringmatch p key = true
  deadlines :
    ∀ i < Host.dbinum, ∀ key t, (fetchInternalDbById dbs dictid i).expires.get key = some t →
    Host.stringmatch p key = true → 0 ≤ t

section

variable {p : Sds} {dictid : ℕ} {now : ℤ} {dbs dbs' : ℕ → Db Value} {key : Sds}

theorem mem_sentFrom : key ∈ sentFrom p now dbs dictid 0 Host.dbinum ↔ ∃ i < Host.dbinum,
    ((fetchInternalDbById dbs dictid i).dict.get key).isSome = true ∧ visits p key = true ∧
      past (fetchInternalDbById dbs dictid i) now key = false := by
  simp only [sentFrom, mem_flatMap, mem_range'_1, sent, mem_filter, Nat.zero_le,
    true_and, Nat.zero_add, Bool.and_eq_true, Bool.not_eq_true', Dict.get_isSome_iff]
  rfl

theorem past_eq_true_iff {db : Db Value} (h : db.Ok) :
    past db now key = true ↔ ∃ t, db.expires.get key = some t ∧ 0 ≤ t ∧ t < now := by
  rw [past, decide_eq_true_iff, h.getExpire_eq]
  rcases db.expires.get key with _ | t <;> simp

theorem nodup_sentFrom (h : LogicalDb dbs dictid) :
    (sentFrom p now dbs dictid 0 Host.dbinum).Nodup := by
  have hpresent : ∀ i key, key ∈ sent p now (fetchInternalDbById dbs dictid i)
      (fetchInternalDbById dbs dictid i).dict.entries →
        ((fetchInternalDbById dbs dictid i).dict.get key).isSome = true :=
    fun i key hkey => Dict.get_isSome_iff.mpr (mem_filter.mp hkey).1
  refine nodup_flatMap.mpr ⟨fun i hi => ?_, ?_⟩
  · have hi : i < Host.dbinum := by simpa using hi
    exact ((h.valid i hi).dict.nodup).filter _
  · refine (nodup_range' 1).imp_of_mem fun hi hj hne => ?_
    intro key hkeyi hkeyj
    exact hne (h.one _ (by simpa using hi) _ (by simpa using hj) key (hpresent _ _ hkeyi)
      (hpresent _ _ hkeyj))

theorem KeysFit.iff (hfit : KeysFit p dictid dbs) (h : LogicalDb dbs dictid) (now : ℤ)
    (hi : i < Host.dbinum)
    (hkey : ((fetchInternalDbById dbs dictid i).dict.get key).isSome = true) :
    (visits p key = true ↔ Host.stringmatch p key = true) ∧
      (Host.stringmatch p key = true → (past (fetchInternalDbById dbs dictid i) now key = true ↔
        (fetchInternalDbById dbs dictid i).Overdue now key)) := by
  refine ⟨⟨fun hvis => stringmatch_of_visits hvis fun hp => hfit.accepted hp i hi key hkey,
    visits_of_stringmatch⟩, fun hmatch => ?_⟩
  rw [past_eq_true_iff (h.valid i hi).toOk]
  constructor
  · rintro ⟨t, ht, -, hlt⟩
    exact ⟨t, ht, hlt⟩
  · rintro ⟨t, ht, hlt⟩
    exact ⟨t, ht, hfit.deadlines i hi key t ht hmatch, hlt⟩

theorem KeysFit.drops_iff (hfit : KeysFit p dictid dbs) (h : LogicalDb dbs dictid) (now : ℤ)
    (hi : i < Host.dbinum) : drops p now (fetchInternalDbById dbs dictid i) key ↔
      (fetchInternalDbById dbs dictid i).Overdue now key ∧ Host.stringmatch p key = true := by
  have hok := (h.valid i hi).toOk
  constructor
  · rintro ⟨hvis, hpast⟩
    obtain ⟨t, ht, -⟩ := (past_eq_true_iff hok).mp hpast
    obtain ⟨hmatch, hover⟩ := hfit.iff h now hi (hok.subset key (by rw [ht]; rfl))
    exact ⟨(hover (hmatch.mp hvis)).mp hpast, hmatch.mp hvis⟩
  · rintro ⟨⟨t, ht, hlt⟩, hmatch⟩
    have hpast := (hfit.iff h now hi (hok.subset key (by rw [ht]; rfl))).2 hmatch
    exact ⟨visits_of_stringmatch hmatch, hpast.mpr ⟨t, ht, hlt⟩⟩

omit [Host] in
theorem Db.unexpired_iff {db : Db Value} :
    db.Unexpired now key ↔ (db.dict.get key).isSome = true ∧ ¬ db.Overdue now key := by
  unfold Db.Unexpired Db.Overdue
  push Not
  rfl

theorem KeysFit.exact (hfit : KeysFit p dictid dbs)
    (hfrom : PurgedFrom p now dictid 0 Host.dbinum dbs dbs') (h : LogicalDb dbs dictid) :
    KeysExact p dictid now dbs
      (.multi (sentFrom p now dbs dictid 0 Host.dbinum).length ::
        (sentFrom p now dbs dictid 0 Host.dbinum).map .bulk) dbs' := by
  have hpurged := fun i (hi : i < Host.dbinum) => hfrom.purged i (Nat.zero_le _) (by omega)
  refine ⟨⟨_, rfl, nodup_sentFrom h, fun key => ?_⟩,
    fun i hi => ((hpurged i hi).congr fun key => (hfit.drops_iff h now hi).symm).toWithout,
      fun j hj => ?_,
    fun j => ⟨hfrom.iterators j, ?_⟩⟩
  · rw [mem_sentFrom, UnexpiredKey]
    constructor
    · rintro ⟨i, hi, hkey, hvis, hpast⟩
      obtain ⟨hmatch, hover⟩ := hfit.iff h now hi hkey
      refine ⟨⟨i, hi, Db.unexpired_iff.mpr ⟨hkey, fun ho => ?_⟩⟩, hmatch.mp hvis⟩
      rw [(hover (hmatch.mp hvis)).mpr ho] at hpast
      cases hpast
    · rintro ⟨⟨i, hi, hun⟩, hkeymatch⟩
      obtain ⟨hkey, hnot⟩ := Db.unexpired_iff.mp hun
      obtain ⟨hmatch, hover⟩ := hfit.iff h now hi hkey
      exact ⟨i, hi, hkey, hmatch.mpr hkeymatch, Bool.eq_false_iff.mpr fun hpast =>
        hnot ((hover hkeymatch).mp hpast)⟩
  · exact hfrom.other j fun i _ h2 => hj i (by omega)
  · by_cases hj : ∃ i < Host.dbinum, j = i + dictid * Host.dbinum
    · obtain ⟨i, hi, rfl⟩ := hj
      exact (hpurged i hi).iterators
    · push Not at hj
      rw [hfrom.other j fun i _ h2 => hj i (by omega)]

theorem KeysExact.fit {out : List Reply} (hexact : KeysExact p dictid now dbs out dbs')
    (hout : out = .multi (sentFrom p now dbs dictid 0 Host.dbinum).length ::
      (sentFrom p now dbs dictid 0 Host.dbinum).map .bulk)
    (hfrom : PurgedFrom p now dictid 0 Host.dbinum dbs dbs') (h : LogicalDb dbs dictid)
    (hnow : 0 ≤ now) :
    KeysFit p dictid dbs := by
  obtain ⟨keys, hkeys, -, hmem⟩ := hexact.sends
  have hsent : sentFrom p now dbs dictid 0 Host.dbinum = keys := by
    rw [hout, cons.injEq] at hkeys
    exact map_injective_iff.mpr (fun _ _ heq => Reply.bulk.inj heq) hkeys.2
  refine ⟨fun hp i hi key hkey => ?_, fun i hi key t ht hmatch => ?_⟩
  · have hvis : visits p key = true := by rw [visits, (allkeys_iff p).mpr (.inr hp), Bool.true_or]
    rcases hpast : past (fetchInternalDbById dbs dictid i) now key with _ | _
    · exact ((hmem key).mp (hsent ▸ mem_sentFrom.mpr ⟨i, hi, hkey, hvis, hpast⟩)).2
    · by_contra hmatch
      have hkept := ((hexact.removes i hi).kept key fun hx => hmatch hx.2).1
      rw [← hkept, ((hfrom.purged i (Nat.zero_le _) (by omega)).gone key ⟨hvis, hpast⟩).1] at hkey
      cases hkey
  · by_contra hneg
    have hok := (h.valid i hi).toOk
    have hkey := hok.subset key (by rw [ht]; rfl)
    have hpast : past (fetchInternalDbById dbs dictid i) now key = false := by
      rw [Bool.eq_false_iff, ne_eq, past_eq_true_iff hok]
      rintro ⟨t', ht', h0, -⟩
      rw [ht, some.injEq] at ht'
      omega
    obtain ⟨⟨j, hj, hkeyj, hdeadline⟩, -⟩ :=
      (hmem key).mp (hsent ▸ mem_sentFrom.mpr ⟨i, hi, hkey, visits_of_stringmatch hmatch, hpast⟩)
    obtain rfl := h.one j hj i hi key hkeyj hkey
    have := hdeadline t ht
    omega

end

/-- KEYS replies each unexpired key that its pattern accepts once and nothing else, removes the
expired ones that it accepts and counts every iterator out again, if and only if a pattern that
begins with `*` and a zero byte accepts all keys of the logical database and no accepted key has a
negative deadline. -/
theorem keys_exact_iff {s : Server} {dictid : ℕ} (h : LogicalDb s.dbs dictid)
    (name p : Sds) (now : ℕ) (world : ℕ → ℤ) :
    (∃ out s', call dictid (keysCommand 0) [name, p] now world s = some (out, s') ∧
      KeysExact p dictid now s.dbs out s'.dbs) ↔ KeysFit p dictid s.dbs := by
  obtain ⟨out, s', hcall, hout, hfrom⟩ := call_of_ends (fun hargs =>
    keysCommand_wp (s := .called _ now s) hargs fun i hi => (h.valid i hi).toOk) world
  constructor
  · rintro ⟨out₁, s₁, hcall₁, hexact⟩
    rw [hcall, some.injEq, Prod.mk.injEq] at hcall₁
    obtain ⟨rfl, rfl⟩ := hcall₁
    exact hexact.fit hout hfrom h (Int.natCast_nonneg now)
  · intro hfit
    exact ⟨out, s', hcall, hout ▸ hfit.exact hfrom h⟩

end

def rehashedKeys : Db Value :=
  ⟨⟨⟨[[], [([97], .str (sharedInteger 0))], [], []], 1⟩,
      ⟨[[([104], .str (sharedInteger 1))], [], [], [], [], [], [], []], 1⟩, some 1, 0⟩,
    ⟨⟨[[], [([97], 1)], [], []], 1⟩, .reset, none, 0⟩⟩

theorem rehashedKeys_logicalDb : let _ := Host.plain 1 1 Nat.one_pos
    LogicalDb (fun _ => rehashedKeys) 0 := by
  let _ := Host.plain 1 1 Nat.one_pos
  have hdict : rehashedKeys.dict.WF := by
    refine ⟨Dictht.wf_of_lt (by decide) rfl, Dictht.wf_of_lt (by decide) rfl,
      by decide, ?_, fun _ => ?_, ?_⟩
    · exact fun h => absurd h (by simp [rehashedKeys])
    · simp [rehashedKeys]
    · rintro r i ⟨⟩ hi
      obtain rfl : i = 0 := by omega
      rfl
  have hexpires : rehashedKeys.expires.WF := by
    refine ⟨Dictht.wf_of_lt (by decide) rfl, Dictht.wf_reset, by decide, fun _ => rfl, ?_, ?_⟩
    · exact fun h => absurd h (by decide)
    · exact fun r i h => absurd h (by simp [rehashedKeys])
  have hsubset : ∀ key ∈ texts rehashedKeys.expires.entries,
      key ∈ texts rehashedKeys.dict.entries := by decide
  refine ⟨fun i _ => ⟨⟨hdict, hexpires, fun key hkey => ?_⟩,
    ⟨fun _ => ⟨2, by decide, rfl⟩, fun _ => ⟨3, by decide, rfl⟩⟩⟩, fun i hi j hj _ _ _ => ?_⟩
  · rw [Dict.get_isSome_iff] at hkey ⊢
    exact hsubset key hkey
  · have hi1 : i < 1 := hi
    have hj1 : j < 1 := hj
    omega

theorem keys_exact_rehashed : let _ := Host.plain 1 1 Nat.one_pos
    ∃ out s', call 0 (Handler.keysCommand 0) [ascii "keys".toList, [42]] 5 (fun _ => 0)
        ⟨fun _ => rehashedKeys, .init, 0⟩ = some (out, s') ∧
      KeysExact [42] 0 5 (fun _ => rehashedKeys) out s'.dbs := by
  let _ := Host.plain 1 1 Nat.one_pos
  refine (keys_exact_iff rehashedKeys_logicalDb (ascii "keys".toList) [42] 5 fun _ => 0).mpr
    ⟨fun hp => absurd hp.length_le (by decide), fun i _ key t ht _ => ?_⟩
  obtain ⟨e, he, rfl⟩ := map_eq_some_iff.mp ht
  rw [mem_singleton.mp (mem_of_assoc he).1]
  decide

/-- The pattern of an asterisk, a zero byte and `x` does not accept the key `a`, but KEYS sends
it. -/
theorem keys_zero_byte : let _ := Host.plain 1 1 Nat.one_pos
    Host.stringmatch [42, 0, 120] [97] = false ∧
      ¬∃ out s', call 0 (Handler.keysCommand 0) [ascii "keys".toList, [42, 0, 120]] 0 (fun _ => 0)
        (Server.single 0 [97] (.str (sharedInteger 0))) = some (out, s') ∧
      KeysExact [42, 0, 120] 0 0 (Server.single 0 [97] (.str (sharedInteger 0))).dbs
        out s'.dbs := by
  let _ := Host.plain 1 1 Nat.one_pos
  have hnot : Host.stringmatch [42, 0, 120] [97] = false := by decide
  refine ⟨hnot, ?_⟩
  rintro ⟨out, s', hcall, hexact⟩
  have hout : (call 0 (Handler.keysCommand 0) [ascii "keys".toList, [42, 0, 120]] 0 (fun _ => 0)
      (Server.single 0 [97] (.str (sharedInteger 0)))).map Prod.fst =
        some [.multi 1, .bulk [97]] := by
    decide +kernel
  rw [hcall, map_some, some.injEq] at hout
  obtain ⟨keys, hkeys, -, hmem⟩ := hexact.sends
  have hbulks : [Reply.bulk [97]] = keys.map .bulk := (cons.inj (hout.symm.trans hkeys)).2
  have hkey : [97] ∈ keys := by
    have : Reply.bulk [97] ∈ keys.map Reply.bulk := hbulks ▸ mem_singleton_self _
    obtain ⟨key, hkey, heq⟩ := mem_map.mp this
    rwa [Reply.bulk.inj heq] at hkey
  rw [((hmem [97]).mp hkey).2] at hnot
  cases hnot

end Vire
