import Mathlib.Data.List.Forall2
import Vire.Keyspace.Proofs.Db
import Vire.Keyspace.Proofs.Object
import Vire.Keyspace.Server

/-!
# Handlers that work on one key

`KeyPut` says what a handler has done so far: the databases are those it began with, but for one
key.  `KeyIs` is what is left of that for a key without a deadline.  There is one rule for every
step a handler takes.  `call_of_ends` leads from a handler to the request it serves.
-/

namespace Vire

open Function List Option Logic Prog

def bulkOrNil : Option Sds → Reply
  | none => .nil
  | some x => .bulk x

/-- What is to hold of the result of a handler, the client and the server. -/
abbrev Post (α : Type) := α → Client → Server → Prop

/-- The handler ends, and `Q` holds of its replies and the databases then. -/
abbrev Cmd.Ends (p : Cmd Unit) (c : Client) (s : Server)
    (Q : List Reply → (ℕ → Db Value) → Prop) : Prop :=
  p.Wp c s fun _ c' s' => Q c'.out s'.dbs

variable [Host]

/-- `dbs'` is `dbs` with this value and deadline at the key, in database `i`. -/
structure KeyPut (dbs : ℕ → Db Value) (i : ℕ) (key : Sds) (v : Option Value) (t : Option ℤ)
    (dbs' : ℕ → Db Value) : Prop where
  other : ∀ j, j ≠ i → dbs' j = dbs j
  is :
    (dbs' i).Is (update (dbs i).dict.get key v) (update (dbs i).expires.get key t)

namespace KeyPut

variable {dbs dbs' : ℕ → Db Value} {i : ℕ} {key : Sds} {v v' : Option Value} {t t' : Option ℤ}

theorem refl (h : (dbs i).Ok) :
    KeyPut dbs i key ((dbs i).dict.get key) ((dbs i).expires.get key) dbs where
  other _ _ := rfl
  is := by
    rw [update_eq_self, update_eq_self]
    exact h.is

theorem value (h : KeyPut dbs i key v t dbs') : (dbs' i).dict.get key = v := by
  rw [h.is.dict, update_self]

theorem deadline (h : KeyPut dbs i key v t dbs') : (dbs' i).expires.get key = t := by
  rw [h.is.expires, update_self]

variable {db : Db Value}

theorem step (h : KeyPut dbs i key v t dbs') (his : db.Is (update (dbs' i).dict.get key v')
      (update (dbs' i).expires.get key t')) :
    KeyPut dbs i key v' t' (update dbs' i db) where
  other j hj := by rw [update_of_ne hj, h.other j hj]
  is := by
    rw [h.is.dict, h.is.expires, update_idem, update_idem] at his
    rwa [update_self]

theorem step_value (h : KeyPut dbs i key v t dbs')
    (his : db.Is (update (dbs' i).dict.get key v') (dbs' i).expires.get) :
    KeyPut dbs i key v' t (update dbs' i db) := by
  refine h.step ?_
  rwa [← h.deadline, update_eq_self]

theorem step_deadline (h : KeyPut dbs i key v t dbs')
    (his : db.Is (dbs' i).dict.get (update (dbs' i).expires.get key t')) :
    KeyPut dbs i key v t' (update dbs' i db) := by
  refine h.step ?_
  rwa [← h.value, update_eq_self]

end KeyPut

/-- What the write path finds at a key; it deletes an expired key first. -/
def Db.found (db : Db Value) (key : Sds) (now : ℤ) : Option Value × Option ℤ :=
  if 0 ≤ getExpire db key ∧ getExpire db key < now then (none, none)
  else (db.dict.get key, db.expires.get key)

/-- Database `i` has this value, or none, for a key without a deadline. -/
structure KeyIs (dbs : ℕ → Db Value) (i : ℕ) (key : Sds) (o : Option Value) : Prop where
  ok : (dbs i).Ok
  value : (dbs i).dict.get key = o
  live : (dbs i).expires.get key = none

variable {o : Option Value} {dbs : ℕ → Db Value} {key : Sds}

theorem KeyIs.put {i : ℕ} (h : KeyIs dbs i key o) :
    KeyPut dbs i key o none dbs := by
  have hrefl : KeyPut dbs i key ((dbs i).dict.get key) ((dbs i).expires.get key) dbs := .refl h.ok
  rwa [h.value, h.live] at hrefl

theorem KeyPut.keyIs {dbs' : ℕ → Db Value} {i : ℕ}
    (h : KeyPut dbs i key o none dbs') : KeyIs dbs' i key o := ⟨h.is.ok, h.value, h.deadline⟩

theorem Server.init_keyIs (now i : ℕ) (key : Sds) : KeyIs (Server.init now).dbs i key none :=
  ⟨redisDbInit_is.ok, by simp [Server.init, redisDbInit], by simp [Server.init, redisDbInit]⟩

namespace KeyIs

variable {dbs : ℕ → Db Value} {i : ℕ} {key : Sds} {o : Option Value}

theorem lookupKeyRead (h : KeyIs dbs i key o) (now : ℤ) :
    Vire.lookupKeyRead (dbs i) key now = o := by
  rw [Vire.lookupKeyRead, checkIfExpired, h.ok.getExpire_eq, h.live, h.ok.lookupKey_eq, h.value]
  simp

theorem found (h : KeyIs dbs i key o) (now : ℤ) : (dbs i).found key now = (o, none) := by
  rw [Db.found, h.ok.getExpire_eq, h.live, h.value]
  simp

end KeyIs

/-- The client with the database of the key. -/
abbrev Client.on (c : Client) (key : Sds) : Client := { c with db := home c.dictid key }

theorem KeyIs.on {c : Client}
    (h : KeyIs dbs (home c.dictid key) key o) : KeyIs dbs (c.on key).db key o := h

/-- The server with one more key. -/
def Server.hold (s : Server) (dictid : ℕ) (key : Sds) (v : Value) : Server :=
  let db := s.dbs (home dictid key)
  { s with dbs := update s.dbs (home dictid key) ((dbAdd db key v).getD db) }

section

variable {s : Server} {dictid i : ℕ} {key key' : Sds} {o : Option Value}

theorem Server.hold_is (h : KeyIs s.dbs (home dictid key) key none) (v : Value) :
    ((s.hold dictid key v).dbs (home dictid key)).Is
      (update (s.dbs (home dictid key)).dict.get key (some v))
      (s.dbs (home dictid key)).expires.get := by
  obtain ⟨db, hdb⟩ : ∃ db, dbAdd (s.dbs (home dictid key)) key v = some db := by
    rw [dbAdd, dictAdd_flag h.ok.dict, show text key = key from rfl, h.value]
    exact ⟨_, rfl⟩
  rw [Server.hold, hdb, getD_some]
  dsimp only
  rw [update_self]
  exact (h.ok.dbAdd_is hdb).2

theorem KeyIs.hold (h : KeyIs s.dbs (home dictid key) key none) (v : Value) :
    KeyIs (s.hold dictid key v).dbs (home dictid key) key (some v) := by
  have his := Server.hold_is h v
  exact ⟨his.ok, by rw [his.dict, update_self], by rw [his.expires, h.live]⟩

theorem KeyIs.hold_other (h' : KeyIs s.dbs i key' o) (h : KeyIs s.dbs (home dictid key) key none)
    (hne : key' ≠ key) (v : Value) : KeyIs (s.hold dictid key v).dbs i key' o := by
  by_cases hi : i = home dictid key
  · subst hi
    have his := Server.hold_is h v
    exact ⟨his.ok, by rw [his.dict, update_of_ne hne, h'.value], by rw [his.expires, h'.live]⟩
  · have hsame : (s.hold dictid key v).dbs i = s.dbs i := update_of_ne hi ..
    exact ⟨by rw [hsame]; exact h'.ok, by rw [hsame]; exact h'.value, by rw [hsame]; exact h'.live⟩

end

def Server.single (dictid : ℕ) (key : Sds) (v : Value) : Server := (Server.init 0).hold dictid key v

theorem Server.single_keyIs (dictid : ℕ) (key : Sds) (v : Value) :
    KeyIs (Server.single dictid key v).dbs (home dictid key) key (some v) :=
  (Server.init_keyIs 0 _ key).hold v

/-- The arguments stand for these byte strings. -/
def Args (os : List Robj) (argv : List Sds) : Prop := Forall₂ Robj.Denotes os argv

variable {os : List Robj} {argv : List Sds} {j : ℕ} {a : Sds}

section

omit [Host]

theorem Args.getD (h : Args os argv) (hj : argv[j]? = some a) (x : Robj) :
    (os.getD j x).Denotes a := by
  obtain ⟨hlt, rfl⟩ := List.getElem?_eq_some_iff.mp hj
  have hlt' : j < os.length := h.length_eq ▸ hlt
  rw [getD_eq_getElem?_getD, getElem?_eq_getElem hlt', getD_some]
  exact h.get hlt' hlt

theorem Args.map_text_drop (h : Args os argv) (k : ℕ) : (os.drop k).map text = argv.drop k := by
  have hdrop := forall₂_drop k h
  generalize os.drop k = os, argv.drop k = as at hdrop
  induction hdrop with
  | nil => rfl
  | cons ho _ ih => rw [map_cons, ho.text_eq, ih]

theorem Args.exists_of_mem_drop {k : ℕ} (h : Args os argv) (ha : a ∈ argv.drop k) :
    ∃ o ∈ os.drop k, o.Denotes a := by
  have hdrop := forall₂_drop k h
  obtain ⟨i, hi, rfl⟩ := getElem_of_mem ha
  exact ⟨_, getElem_mem (hdrop.length_eq ▸ hi), hdrop.get (hdrop.length_eq ▸ hi) hi⟩

theorem forall₂_range' {α : Type} (argv : List α) (k : ℕ) :
    Forall₂ (fun j a => argv[j]? = some a) (range' k (argv.length - k))
      (argv.drop k) := by
  refine forall₂_iff_get.mpr ⟨by simp, fun i hi hi' => ?_⟩
  rw [length_drop] at hi'
  simp only [get_eq_getElem, getElem_range', getElem_drop, Nat.one_mul]
  exact getElem?_eq_getElem (by omega)

theorem Args.set {o : Robj} (h : Args os argv) (hj : argv[j]? = some a) (ho : o.Denotes a) :
    Args (os.set j o) argv := by
  refine forall₂_iff_get.mpr ⟨by rw [length_set, h.length_eq], fun i hi hi' => ?_⟩
  simp only [get_eq_getElem, getElem_set]
  split_ifs with hij
  · subst hij
    rw [getElem?_eq_getElem hi', some.injEq] at hj
    rwa [hj]
  · rw [length_set] at hi
    exact h.get hi hi'

end

namespace Handler

variable {c : Client} {s : Server} {key : Sds} {o : Option Value} {v : Value} {α : Type}

theorem getExpire_eq_of_keyIs (h : KeyIs s.dbs c.db key o) : getExpire (s.dbs c.db) key = -1 := by
  rw [h.ok.getExpire_eq, h.live, getD_none]

variable {Q : Post (Option Value)}

theorem wp_lookupKeyRead_eq :
    (lookupKeyRead key).Wp c s Q ↔ Q (Vire.lookupKeyRead (s.dbs c.db) key s.now) c s := by
  rw [lookupKeyRead, reading, wp_actP]
  simp only [Machine.perform, update_eq_self]

theorem wp_lookupKeyRead (h : KeyIs s.dbs c.db key o) :
    (lookupKeyRead key).Wp c s Q ↔ Q o c s := by
  rw [wp_lookupKeyRead_eq, h.lookupKeyRead]

theorem wp_lookupKeyWrite_found (h : (s.dbs c.db).Ok)
    (hQ : ∀ s', KeyPut s.dbs c.db key ((s.dbs c.db).found key s.now).1
      ((s.dbs c.db).found key s.now).2 s'.dbs → Q ((s.dbs c.db).found key s.now).1 c s') :
    (lookupKeyWrite key).Wp c s Q := by
  rw [lookupKeyWrite, writing, wp_actP]
  simp only [Machine.perform, expireIfNeededKv]
  by_cases hpast : 0 ≤ getExpire (s.dbs c.db) key ∧ getExpire (s.dbs c.db) key < s.now
  · rw [Db.found, if_pos hpast] at hQ
    rw [if_neg (by omega)]
    obtain ⟨his, -⟩ := h.dbDelete_is key
    simp only [dbDeleteKv, his.ok.lookupKey_eq, his.dict, update_self]
    exact hQ _ ((KeyPut.refl h).step his)
  · rw [Db.found, if_neg hpast] at hQ
    rw [if_pos (by omega)]
    simp only [update_eq_self, h.lookupKey_eq]
    exact hQ _ (.refl h)

theorem wp_lookupKeyWrite (h : KeyIs s.dbs c.db key o) :
    (lookupKeyWrite key).Wp c s Q ↔ Q o c s := by
  have hkeep : ∀ heap : Heap, (expireIfNeededKv key s.now ⟨heap, s.dbs c.db⟩).2 =
      ⟨heap, s.dbs c.db⟩ := by
    intro heap
    rw [expireIfNeededKv, getExpire_eq_of_keyIs h]
    simp
  rw [lookupKeyWrite, writing, wp_actP]
  simp only [Machine.perform, hkeep, h.ok.lookupKey_eq, h.value, update_eq_self]

omit [Host] in
theorem wp_inMemory {f : Heap → α × Heap} {Q : Post α} :
    (inMemory f).Wp c s Q ↔ Q (f s.heap).1 c { s with heap := (f s.heap).2 } := by
  rfl

omit [Host] in
theorem wp_orHalt_some {a : α} {Q : Post α} :
    (orHalt (some a)).Wp c s Q ↔ Q a c s := Iff.rfl

variable {make : Heap → Value × Heap}

section

variable {dbs : ℕ → Db Value} {t : Option ℤ}

theorem wp_dbAdd_put {Q : Post Value} (h : KeyPut dbs c.db key none t s.dbs)
    (hQ : ∀ s', KeyPut dbs c.db key (some (make s.heap).1) t s'.dbs → Q (make s.heap).1 c s') :
    (dbAdd key make).Wp c s Q := by
  obtain ⟨db', hdb'⟩ : ∃ db', Vire.dbAdd (s.dbs c.db) key (make s.heap).1 = some db' := by
    rw [Vire.dbAdd, dictAdd_flag h.is.ok.dict, text_sds, h.value]
    exact ⟨_, rfl⟩
  rw [dbAdd, wp_bind, writing, wp_actP]
  simp only [Machine.perform, hdb', wp_orHalt_some]
  exact hQ _ (h.step_value (h.is.ok.dbAdd_is hdb').2)

theorem wp_dbOverwrite_put {Q : Post Value} (h : KeyPut dbs c.db key (some v) t s.dbs)
    (hQ : ∀ s', KeyPut dbs c.db key (some (make s.heap).1) t s'.dbs → Q (make s.heap).1 c s') :
    (dbOverwrite key make).Wp c s Q := by
  obtain ⟨db', hdb'⟩ : ∃ db', Vire.dbOverwrite (s.dbs c.db) key (make s.heap).1 = some db' := by
    rw [Vire.dbOverwrite, h.is.ok.dict.dictFind_isSome, h.value]
    exact ⟨_, rfl⟩
  rw [dbOverwrite, wp_bind, writing, wp_actP]
  simp only [Machine.perform, hdb', wp_orHalt_some]
  exact hQ _ (h.step_value (h.is.ok.dbOverwrite_is hdb').2)

theorem wp_update_put {f : Heap → Option (α × Value × Heap)} {r : α × Value × Heap} {Q : Post α}
    (h : KeyPut dbs c.db key (some v) t s.dbs) (hf : f s.heap = some r)
    (hQ : ∀ s', KeyPut dbs c.db key (some r.2.1) t s'.dbs → Q r.1 c s') :
    (update key f).Wp c s Q := by
  have hsome : ((s.dbs c.db).dict.get key).isSome = true := by rw [h.value]; rfl
  obtain ⟨hw, hget⟩ := get_setVal h.is.ok.dict hsome r.2.1
  rw [update, wp_bind, writing, wp_actP]
  simp only [Machine.perform, hf, wp_orHalt_some]
  exact hQ _ (h.step_value (h.is.ok.put hsome hw hget))

theorem wp_removeExpire_put {Q : Post Bool} (h : KeyPut dbs c.db key (some v) t s.dbs)
    (hQ : ∀ b s', KeyPut dbs c.db key (some v) none s'.dbs → Q b c s') :
    (removeExpire key).Wp c s Q := by
  obtain ⟨r, hr⟩ : ∃ r, Vire.removeExpire (s.dbs c.db) key = some r := by
    rw [Vire.removeExpire, h.is.ok.dict.dictFind_isSome, h.value]
    exact ⟨_, rfl⟩
  rw [removeExpire, wp_bind, writing, wp_actP]
  simp only [Machine.perform, hr, wp_orHalt_some]
  exact hQ _ _ (h.step_deadline (h.is.ok.removeExpire_is hr).2)

theorem wp_setExpire_put {Q : Post Unit} (h : KeyPut dbs c.db key (some v) t s.dbs) (when_ : ℤ)
    (hQ : ∀ s', KeyPut dbs c.db key (some v) (some when_) s'.dbs → Q () c s') :
    (setExpire key when_).Wp c s Q := by
  obtain ⟨db', hdb'⟩ : ∃ db', Vire.setExpire (s.dbs c.db) key when_ = some db' := by
    have hfind : (dictFind (s.dbs c.db).dict key).isSome = true := by
      rw [h.is.ok.dict.dictFind_isSome, h.value]
      rfl
    obtain ⟨e, he⟩ := isSome_iff_exists.mp hfind
    rw [Vire.setExpire, he]
    exact ⟨_, rfl⟩
  rw [setExpire, wp_bind, writing, wp_actP]
  simp only [Machine.perform, hdb', wp_orHalt_some]
  exact hQ _ (h.step_deadline (h.is.ok.setExpire_is hdb').2)

theorem wp_setKey_put {Q : Post Unit} (h : KeyPut dbs c.db key o t s.dbs)
    (hQ : ∀ s', KeyPut dbs c.db key (some (make s.heap).1) none s'.dbs → Q () c s') :
    (setKey key make false).Wp c s Q := by
  have hrem : ∀ s', KeyPut dbs c.db key (some (make s.heap).1) t s'.dbs →
      (do let _ ← removeExpire key : Cmd Unit).Wp c s' Q := fun s' h' => by
    rw [wp_bind]
    exact wp_removeExpire_put h' fun _ s'' h'' => hQ s'' h''
  rw [setKey, if_neg Bool.false_ne_true, wp_bind, reading, wp_actP]
  simp only [Machine.perform, update_eq_self, h.is.ok.lookupKey_eq, h.value]
  cases o with
  | none => exact (wp_bind ..).mpr (wp_dbAdd_put h hrem)
  | some v => exact (wp_bind ..).mpr (wp_dbOverwrite_put h hrem)

theorem wp_dbDelete_put {Q : Post Bool} (h : KeyPut dbs c.db key o t s.dbs)
    (hQ : ∀ s', KeyPut dbs c.db key none none s'.dbs → Q o.isSome c s') :
    (dbDelete key).Wp c s Q := by
  obtain ⟨his, hret⟩ := h.is.ok.dbDelete_is key
  rw [dbDelete, writing, wp_actP]
  simp only [Machine.perform, dbDeleteKv, hret, h.value]
  exact hQ _ (h.step his)

end

theorem wp_dbAdd {Q : Post Value} (h : KeyIs s.dbs c.db key none)
    (hQ : ∀ s', KeyIs s'.dbs c.db key (some (make s.heap).1) → Q (make s.heap).1 c s') :
    (dbAdd key make).Wp c s Q := wp_dbAdd_put h.put fun s' h' => hQ s' h'.keyIs

theorem wp_update {f : Heap → Option (α × Value × Heap)} {r : α × Value × Heap} {Q : Post α}
    (h : KeyIs s.dbs c.db key (some v)) (hf : f s.heap = some r)
    (hQ : ∀ s', KeyIs s'.dbs c.db key (some r.2.1) → Q r.1 c s') :
    (update key f).Wp c s Q := wp_update_put h.put hf fun s' h' => hQ s' h'.keyIs

theorem wp_dbDelete {Q : Post Bool} (h : KeyIs s.dbs c.db key o)
    (hQ : ∀ s', KeyIs s'.dbs c.db key none → Q o.isSome c s') :
    (dbDelete key).Wp c s Q := wp_dbDelete_put h.put fun s' h' => hQ s' h'.keyIs

section

omit [Host]

variable {α : Type}

theorem wp_arg {f : Robj → Cmd α} {Q : Post α} :
    (arg j >>= f).Wp c s Q ↔ (f (c.argv.getD j (sharedInteger 0))).Wp c s Q := Iff.rfl

theorem wp_args {f : List Robj → Cmd α} {Q : Post α} :
    (args j >>= f).Wp c s Q ↔ (f (c.argv.drop j)).Wp c s Q := Iff.rfl

theorem wp_argc {f : ℕ → Cmd α} {Q : Post α} :
    (argc >>= f).Wp c s Q ↔ (f c.argv.length).Wp c s Q := Iff.rfl

variable {Q : Post Unit}

theorem wp_addReply {r : Reply} :
    (addReply r).Wp c s Q ↔ Q () { c with out := c.out ++ [r] } s := Iff.rfl

theorem wp_addReplies {r : List Reply} :
    (addReplies r).Wp c s Q ↔ Q () { c with out := c.out ++ r } s := Iff.rfl

theorem wp_someNat {Q : Post ℕ} (hQ : ∀ n, Q n c s) : someNat.Wp c s Q :=
  fun i => hQ i.toNat

theorem wp_replyUnlock {r : Reply} :
    (do addReply r; unlockDb : Cmd Unit).Wp c s Q ↔ Q () { c with out := c.out ++ [r] } s := Iff.rfl

variable {argv : List Sds} {a : Sds}

theorem wp_encodeArg (hargs : Args c.argv argv) (hj : argv[j]? = some a)
    (hQ : ∀ os heap, Args os argv → Q () { c with argv := os } { s with heap := heap }) :
    (encodeArg j).Wp c s Q :=
  hQ _ _ (hargs.set hj ((hargs.getD hj _).tryObjectEncoding _))

theorem wp_withLong {k : ℤ → Cmd Unit} (hargs : Args c.argv argv) (hj : argv[j]? = some a)
    (hnone : getLongLong a = none → Q () { c with out := c.out ++ [notAnInteger] } s)
    (hsome : ∀ i, getLongLong a = some i → (k i).Wp c s Q) :
    (do withLong (← arg j) k).Wp c s Q := by
  rw [wp_arg, withLong, (hargs.getD hj _).getLongLongFromObject]
  cases h : getLongLong a with
  | none => exact hnone h
  | some i => exact hsome i h

theorem fails_withLong {k : ℤ → Cmd Unit} {i : ℤ} (hargs : Args c.argv argv)
    (hj : argv[j]? = some a) (hi : getLongLong a = some i) (h : (k i).Fails c s) :
    (do withLong (← arg j) k).Fails c s := by
  refine .of_wp ?_
  rw [arg, wp_readP, withLong, (hargs.getD hj _).getLongLongFromObject, hi]
  exact h

end

theorem wp_fetchInternalDbByKey {Q : Post Unit} :
    (fetchInternalDbByKey key).Wp c s Q ↔ Q () { c with db := home c.dictid key } s := Iff.rfl

section

variable {argv : List Sds} (hargs : Args c.argv argv) (hkey : argv[1]? = some key)
  {sel : Value → Option α} {missing : Reply} {a : α} {Q : Post Unit}

include hargs hkey

omit [Host] in
theorem text_arg_one : text (c.argv.getD 1 (sharedInteger 0)) = key := (hargs.getD hkey _).text_eq

theorem wp_lockKey {m : Mode} {body : Sds → Cmd Unit} (hQ : (body key).Wp (c.on key) s Q) :
    (lockKey m body).Wp c s Q := by
  rw [lockKey, wp_arg, text_arg_one hargs hkey]
  exact hQ

theorem fails_lockKey {m : Mode} {body : Sds → Cmd Unit} (h : (body key).Fails (c.on key) s) :
    (lockKey m body).Fails c s := by
  refine .of_wp ?_
  rw [arg, wp_readP, text_arg_one hargs hkey]
  exact h

theorem wp_readKey_none {body : α → Cmd Unit} (h : KeyIs s.dbs (home c.dictid key) key none)
    (hQ : Q () { c.on key with out := c.out ++ [missing] } s) :
    (readKey sel missing body).Wp c s Q := by
  refine wp_lockKey hargs hkey ?_
  rw [wp_bind, wp_lookupKeyRead h.on]
  exact hQ

theorem wp_readKey_some {body : α → Cmd Unit} (h : KeyIs s.dbs (home c.dictid key) key (some v))
    (hsel : sel v = some a) (hQ : (body a).Wp (c.on key) s Q) :
    (readKey sel missing body).Wp c s Q := by
  refine wp_lockKey hargs hkey ?_
  rw [wp_bind, wp_lookupKeyRead h.on, orReply, withSome, hsel]
  exact hQ

variable {body : Sds → α → Cmd Unit}

theorem wp_writeKey_none (h : KeyIs s.dbs (home c.dictid key) key none)
    (hQ : Q () { c.on key with out := c.out ++ [missing] } s) :
    (writeKey sel missing body).Wp c s Q := by
  refine wp_lockKey hargs hkey ?_
  rw [wp_bind, wp_lookupKeyWrite h.on]
  exact hQ

theorem wp_writeKey_some (h : KeyIs s.dbs (home c.dictid key) key (some v)) (hsel : sel v = some a)
    (hQ : (body key a).Wp (c.on key) s Q) : (writeKey sel missing body).Wp c s Q := by
  refine wp_lockKey hargs hkey ?_
  rw [wp_bind, wp_lookupKeyWrite h.on, orReply, withSome, hsel]
  exact hQ

theorem wp_writeKey_found {t : Option ℤ} (hok : (s.dbs (home c.dictid key)).Ok)
    (hfound : (s.dbs (home c.dictid key)).found key s.now = (some v, t)) (hsel : sel v = some a)
    (hQ : ∀ s', KeyPut s.dbs (home c.dictid key) key (some v) t s'.dbs →
      (body key a).Wp (c.on key) s' Q) :
    (writeKey sel missing body).Wp c s Q := by
  refine wp_lockKey hargs hkey ?_
  rw [wp_bind]
  refine wp_lookupKeyWrite_found (c := c.on key) hok fun s' hput => ?_
  rw [hfound] at hput ⊢
  simpa only [orReply, withSome, hsel] using hQ s' hput

end

omit [Host] in
theorem createArgv_denotes (argv : List Sds) (h : Heap) :
    Forall₂ Robj.Denotes (createArgv argv h).1 argv := by
  induction argv generalizing h with
  | nil => exact .nil
  | cons a argv ih => exact .cons (createStringObject_denotes a h) (ih _)

end Handler

section

variable {s : Server} {dictid : ℕ} {proc : Cmd Unit} {argv : List Sds} {now : ℕ}

/-- The client and the server as the handler of a request finds them. -/
abbrev Client.called (dictid : ℕ) (os : List Robj) :
    Client := ⟨dictid * Host.dbinum, dictid, none, os, []⟩

abbrev Server.called (argv : List Sds) (now : ℕ) (s : Server) : Server :=
  { s with heap := (createArgv argv s.heap).2, now := now }

theorem call_of_ends {Q : List Reply → (ℕ → Db Value) → Prop}
    (h : ∀ {os}, Args os argv → proc.Ends (.called dictid os) (.called argv now s) Q)
    (world : ℕ → ℤ) :
    ∃ out s', call dictid proc argv now world s = some (out, s') ∧ Q out s'.dbs := by
  obtain ⟨_, c', s', hrun, hpost⟩ := (h (Handler.createArgv_denotes argv s.heap)).run world
  refine ⟨c'.out, { s' with heap := s'.heap.freeAll c'.argv }, ?_, hpost⟩
  simp only [call, hrun, map_some]

theorem call_of_fails
    (h : ∀ {os}, Args os argv → proc.Fails (.called dictid os) (.called argv now s))
    (world : ℕ → ℤ) : call dictid proc argv now world s = none := by
  rw [call, (h (Handler.createArgv_denotes argv s.heap)).run world, map_none]

end

/-- A family of commands whose handlers answer as an abstract system may answer: every request of a
session is answered, and the answers are those of the abstract system.  `At dictid cmds dbs t`: the
databases stand for `t`, and the commands `cmds` may come. -/
theorem serveAll_answers {C τ : Type} {proc : C → Cmd Unit} {argv : C → List Sds}
    (spec : τ → C → List Reply → τ → Prop) (At : ℕ → List C → (ℕ → Db Value) → τ → Prop)
    (hwp : ∀ cmd cmds d os s t, Args os (argv cmd) → At d (cmd :: cmds) s.dbs t →
      (proc cmd).Ends (.called d os) s fun out dbs => ∃ t', spec t cmd out t' ∧ At d cmds dbs t')
    (requests : List (Request C)) {dictid : ℕ} {s : Server} {t : τ}
    (h : At dictid (requests.map Request.cmd) s.dbs t) :
    ∃ outs s' t', serveAll (serve dictid proc argv) requests s = some (outs, s') ∧
      Answers (fun t r => spec t r.cmd) t requests outs t' ∧ At dictid [] s'.dbs t' := by
  refine answers_of_simulation
    (R := fun rs (s : Server) t => At dictid (rs.map Request.cmd) s.dbs t)
    (fun r rs s t h => ?_) requests h
  obtain ⟨out, s', hcall, t', hspec, hat⟩ :=
    call_of_ends (fun hargs => hwp r.cmd (rs.map Request.cmd) _ _ (.called _ r.now s) t hargs h)
      r.world
  exact ⟨out, s', t', hcall, hspec, hat⟩

/-- `serveAll_answers` for a system that answers as long as its state satisfies `B`. -/
theorem serveAll_answers_within {C τ : Type} {proc : C → Cmd Unit} {argv : C → List Sds}
    (spec : τ → C → List Reply → τ → Prop) (At : ℕ → (ℕ → Db Value) → τ → Prop) (B : τ → Prop)
    (hwp : ∀ cmd d os s t, Args os (argv cmd) → At d s.dbs t → B t →
      (∀ out t', spec t cmd out t' → B t') →
      (proc cmd).Ends (.called d os) s fun out dbs => ∃ t', spec t cmd out t' ∧ At d dbs t')
    (requests : List (Request C)) {dictid : ℕ} {s : Server} {t : τ} (h : At dictid s.dbs t)
    (hB : Throughout spec B t (requests.map Request.cmd)) :
    ∃ outs s' t', serveAll (serve dictid proc argv) requests s = some (outs, s') ∧
      Answers (fun t r => spec t r.cmd) t requests outs t' ∧ At dictid s'.dbs t' := by
  have hstep : ∀ cmd cmds d os s t, Args os (argv cmd) →
      At d s.dbs t ∧ Throughout spec B t (cmd :: cmds) →
        (proc cmd).Ends (.called d os) s fun out dbs =>
        ∃ t', spec t cmd out t' ∧ At d dbs t' ∧ Throughout spec B t' cmds := by
    intro cmd cmds d os s t hargs ⟨hat, hB, hnext⟩
    refine (hwp cmd d os s t hargs hat hB fun out t' hspec => (hnext out t' hspec).head).mono ?_
    rintro _ c' s' ⟨t', hspec, hat'⟩
    exact ⟨t', hspec, hat', hnext _ t' hspec⟩
  obtain ⟨outs, s', t', hserve, hans, hat, -⟩ := serveAll_answers spec
    (fun d cmds dbs t => At d dbs t ∧ Throughout spec B t cmds) hstep requests ⟨h, hB⟩
  exact ⟨outs, s', t', hserve, hans, hat⟩

end Vire
