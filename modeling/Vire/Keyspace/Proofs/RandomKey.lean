import Mathlib.Data.Nat.Pairing
import Vire.Keyspace.Proofs.ScanExpired
import Vire.Keyspace.RandomKey

/-!
# RANDOMKEY ends

Every call of `dictGetRandomKey` does a step of rehashing, so after some calls the dictionary stays
as it is; from then on a key that is not expired is drawn at some round.
-/

namespace Vire

open List Option Function

variable {K V : Type}

/-- Rehashing has not gone beyond the first table. -/
def Dict.Ranged (d : Dict K V) : Prop := ∀ i, d.rehashidx = some i → i ≤ d.ht0.size

def Dict.rehashLeft (d : Dict K V) : ℕ :=
  match d.rehashidx with
  | some i => d.ht0.size - i + 1
  | none => 0

variable {h : Dictht K V} {i : ℕ}

theorem Dictht.lt_size_of_chain (hi : h.chain i ≠ []) : i < h.size := by
  by_contra hlt
  exact hi (getD_eq_default _ _ (Nat.le_of_not_lt hlt))

theorem lt_of_skipEmpty_out {v j : ℕ} (hs : skipEmpty h (v + 1) i = .out j) :
    i < j := by
  have hspec := skipEmpty_spec h v (i + 1)
  rw [skipEmpty] at hs
  split_ifs at hs with h1 h2
  · cases hs
    exact Nat.lt_succ_self i
  · rw [hs] at hspec
    exact hspec.1

theorem chain_of_skipEmpty_found {w j : ℕ} (v : ℕ) :
    ∀ i, skipEmpty h v i = .found j w → h.chain j ≠ [] := by
  induction v with
  | zero => exact fun i hs => by cases hs
  | succ v ih =>
    intro i hs
    rw [skipEmpty] at hs
    split_ifs at hs with h1 h2
    · cases hs
      exact h1
    · exact ih _ hs

/-- The dictionary while it is being rehashed, after some buckets were moved. -/
structure Dict.Advanced (d d' : Dict K V) : Prop where
  ht0 : d'.ht0.size = d.ht0.size
  ht1 : d'.ht1.size = d.ht1.size
  ranged : d'.Ranged
  left : d'.rehashLeft < d.rehashLeft

theorem Dict.Sized.of_size {d d' : Dict K V} (hs : d.Sized) (h0 : d'.ht0.size = d.ht0.size)
    (h1 : d'.ht1.size = d.ht1.size) : d'.Sized := by
  have htable : ∀ h h' : Dictht K V, h'.size = h.size → h'.table ≠ [] → h.table ≠ [] := by
    intro h h' heq hne hnil
    have hpos := length_pos_iff.mpr hne
    unfold Dictht.size at heq
    rw [hnil, length_nil] at heq
    omega
  exact ⟨fun h => h0 ▸ hs.ht0 (htable _ _ h0 h), fun h => h1 ▸ hs.ht1 (htable _ _ h1 h)⟩

section

variable [Text K] [HashFn] {d d' : Dict K V}

theorem size_foldl_push (c : List (K × V)) :
    ∀ h : Dictht K V, (c.foldl Dictht.push h).size = h.size := by
  induction c with
  | nil => exact fun _ => rfl
  | cons e c ih => exact fun h => (ih _).trans (Dictht.size_push e)

theorem dictRehash_one (hw : d.WF) (hb : d.isRehashing = true) :
    (∃ d', Dict.Advanced d d' ∧ (dictRehash d 1).1 = d') ∨
      (dictRehash d 1).1.rehashidx = none ∧ (dictRehash d 1).1.ht0.size = d.ht1.size ∧
        (dictRehash d 1).1.ht1 = .reset := by
  obtain ⟨r, hidx⟩ := Dict.isRehashing_iff.mp hb
  by_cases hu : d.ht0.used = 0
  · simp [dictRehash, hb, dictRehashLoop, hu]
  -- a bucket with entries is ahead
  obtain ⟨j, hj⟩ : ∃ j, d.ht0.chain j ≠ [] := by
    rw [hw.ht0.used] at hu
    obtain ⟨e, he⟩ := exists_mem_of_length_pos (Nat.pos_of_ne_zero hu)
    obtain ⟨j, he⟩ := Dictht.mem_entries.mp he
    exact ⟨j, ne_nil_of_mem he⟩
  have hjlt := Dictht.lt_size_of_chain hj
  have hrj : r ≤ j := Nat.le_of_not_lt fun hlt => hj (hw.moved r j hidx hlt)
  have hleft : d.rehashLeft = d.ht0.size - r + 1 := by simp only [Dict.rehashLeft, hidx]
  have hspec := skipEmpty_spec d.ht0 10 r
  rcases hskip : skipEmpty d.ht0 10 r with ⟨i, v⟩ | i
  · rw [hskip] at hspec
    have hi := Dictht.lt_size_of_chain (chain_of_skipEmpty_found _ _ hskip)
    have hsize0 : (moveBucket d i).ht0.size = d.ht0.size := by simp [moveBucket, Dictht.size]
    have hsize1 : (moveBucket d i).ht1.size = d.ht1.size := size_foldl_push _ _
    by_cases hu' : (moveBucket d i).ht0.used = 0
    · simp [dictRehash, hb, dictRehashLoop, hu, hidx, hskip, hu', hsize1]
    · left
      refine ⟨moveBucket d i, ⟨hsize0, hsize1, fun k hk => ?_, ?_⟩, ?_⟩
      · cases hk
        omega
      · rw [hleft, Dict.rehashLeft, hsize0]
        simp only [moveBucket]
        omega
      · simp [dictRehash, hb, dictRehashLoop, hu, hidx, hskip, hu']
  · left
    rw [hskip] at hspec
    have hri := lt_of_skipEmpty_out hskip
    have hij : i ≤ j := Nat.le_of_not_lt fun hlt => hj (hspec.2 j hrj hlt)
    refine ⟨{ d with rehashidx := some i }, ⟨rfl, rfl, fun k hk => ?_, ?_⟩, ?_⟩
    · cases hk
      dsimp only
      omega
    · rw [hleft]
      simp only [Dict.rehashLeft]
      omega
    · simp [dictRehash, hb, dictRehashLoop, hu, hidx, hskip]

/-- What the random choice needs to know of a dictionary. -/
structure Dict.Drawable (d : Dict K V) : Prop where
  wf : d.WF
  sized : d.Sized
  ranged : d.Ranged

theorem rehashStepIf_left (h : d.Drawable) :
    (rehashStepIf d).Drawable ∧
      (rehashStepIf d = d ∨ (rehashStepIf d).rehashLeft < d.rehashLeft) := by
  have hsame := rehashStepIf_same h.wf
  unfold rehashStepIf dictRehashStep at hsame ⊢
  by_cases hb : d.isRehashing = true
  · by_cases hit : d.iterators = 0
    · simp only [hb, hit, if_true] at hsame ⊢
      rcases dictRehash_one h.wf hb with ⟨d', hadv, heq⟩ | ⟨hidx, h0, h1⟩
      · rw [heq] at hsame ⊢
        exact ⟨⟨hsame.wf, h.sized.of_size hadv.ht0 hadv.ht1, hadv.ranged⟩, .inr hadv.left⟩
      · obtain ⟨r, hr⟩ := Dict.isRehashing_iff.mp hb
        refine ⟨⟨hsame.wf, ⟨fun hne => ?_, fun hne => absurd (by rw [h1]; rfl) hne⟩,
          fun i hi => by rw [hidx] at hi; cases hi⟩, .inr ?_⟩
        · rw [h0]
          exact h.sized.ht1 (h.wf.tables hb).2
        · simp only [Dict.rehashLeft, hidx, hr]
          omega
    · rw [if_pos hb, if_neg hit]
      exact ⟨h, .inl rfl⟩
  · rw [if_neg hb]
    exact ⟨h, .inl rfl⟩

/-- Each bucket, and in it each place of its chain, is drawn infinitely often. -/
def Dict.Fair (d : Dict K V) (draws : ℕ → Draw) : Prop :=
  ∀ b < d.buckets, ∀ q < (d.bucketAt b).length, ∀ N, ∃ n ≥ N,
    d.bucketNo (draws n).bucket = b ∧ (draws n).pos % (d.bucketAt b).length = q

/-- The draws are fair for the dictionary at every stage of its rehashing. -/
def FairRun (d : Dict K V) (draws : ℕ → Draw) : Prop := ∀ k, (rehashStepIf^[k] d).Fair draws

variable {draws : ℕ → Draw} {e : K × V} {n : ℕ}

theorem FairRun.step (h : FairRun d draws) : FairRun (rehashStepIf d) draws := fun k => h (k + 1)

theorem mem_of_bucketAt (hw : d.WF) {b : ℕ} (he : e ∈ d.bucketAt b) : e ∈ d.entries := by
  rw [hw.entries_eq, mem_append]
  unfold Dict.bucketAt at he
  split at he
  · dsimp only at he
    split_ifs at he
    · exact .inr (Dictht.mem_entries.mpr ⟨_, he⟩)
    · exact .inl (Dictht.mem_entries.mpr ⟨_, he⟩)
  · exact .inl (Dictht.mem_entries.mpr ⟨_, he⟩)

theorem exists_bucketAt (h : d.Drawable) (he : e ∈ d.entries) :
    ∃ b < d.buckets, e ∈ d.bucketAt b := by
  rw [h.wf.entries_eq, mem_append, Dictht.mem_entries, Dictht.mem_entries] at he
  rcases hidx : d.rehashidx with _ | i
  · rcases he with ⟨j, hj⟩ | ⟨j, hj⟩
    · refine ⟨j, ?_, by simpa only [Dict.bucketAt, hidx] using hj⟩
      simpa only [Dict.buckets, hidx] using Dictht.lt_size_of_chain (ne_nil_of_mem hj)
    · rw [h.wf.idle hidx] at hj
      exact absurd hj not_mem_nil
  · have hle := h.ranged i hidx
    simp only [Dict.buckets, Dict.bucketAt, hidx]
    rcases he with ⟨j, hj⟩ | ⟨j, hj⟩
    · have hlt := Dictht.lt_size_of_chain (ne_nil_of_mem hj)
      have hij : i ≤ j := Nat.le_of_not_lt fun hji =>
        ne_nil_of_mem hj (h.wf.moved i j hidx hji)
      refine ⟨j - i, by omega, ?_⟩
      rwa [Nat.add_sub_cancel' hij, if_neg (by omega)]
    · have hlt := Dictht.lt_size_of_chain (ne_nil_of_mem hj)
      refine ⟨d.ht0.size + j - i, by omega, ?_⟩
      rwa [Nat.add_sub_cancel' (by omega), if_pos (by omega), Nat.add_sub_cancel_left]

theorem mem_of_draw (hw : d.WF) {r : Draw} (h : d.draw r = some e) : e ∈ d.entries :=
  mem_of_bucketAt hw (mem_of_getElem? h)

theorem Dict.Fair.exists_draw (hf : d.Fair draws) (h : d.Drawable) (he : e ∈ d.entries) (N : ℕ) :
    ∃ n ≥ N, d.draw (draws n) = some e := by
  obtain ⟨b, hb, he⟩ := exists_bucketAt h he
  obtain ⟨q, hq, rfl⟩ := getElem_of_mem he
  obtain ⟨n, hn, hbucket, hpos⟩ := hf b hb q hq N
  refine ⟨n, hn, ?_⟩
  simp only [Dict.draw, hbucket, hpos]
  exact getElem?_eq_getElem hq

omit [Text K] [HashFn] in
theorem drawLoop_ends {n0 : ℕ} (hdraw : (d.draw (draws n0)).isSome = true) :
    ∀ m n, n + m = n0 → ∃ rounds e n1, drawLoop d draws rounds n = some (e, n1 + 1) ∧ n ≤ n1 ∧
      n1 ≤ n0 ∧ d.draw (draws n1) = some e := by
  intro m
  induction m with
  | zero =>
    rintro n rfl
    obtain ⟨e, he⟩ := isSome_iff_exists.mp hdraw
    exact ⟨1, e, n, by simp only [drawLoop]; rw [Nat.add_zero] at he; rw [he], le_rfl, le_rfl, he⟩
  | succ m ih =>
    intro n hn
    rcases hd : d.draw (draws n) with _ | e
    · obtain ⟨rounds, e, n1, hloop, h1, h2, he⟩ := ih (n + 1) (by omega)
      exact ⟨rounds + 1, e, n1, by rw [drawLoop, hd]; exact hloop, by omega, h2, he⟩
    · exact ⟨1, e, n, by rw [drawLoop, hd], le_rfl, by omega, hd⟩

theorem mem_of_drawLoop (hw : d.WF) {m : ℕ} (rounds : ℕ) :
    ∀ n, drawLoop d draws rounds n = some (e, m) → e ∈ d.entries := by
  induction rounds with
  | zero => exact fun n h => by cases h
  | succ rounds ih =>
    intro n h
    rw [drawLoop] at h
    split at h
    · rename_i e' hd
      cases h
      exact mem_of_draw hw hd
    · exact ih _ h

omit [Text K] [HashFn] in
theorem drawLoop_mono {x : (K × V) × ℕ} (rounds k : ℕ) :
    ∀ n, drawLoop d draws rounds n = some x → drawLoop d draws (rounds + k) n = some x := by
  induction rounds with
  | zero => exact fun n h => by cases h
  | succ rounds ih =>
    intro n h
    rw [Nat.succ_add, drawLoop]
    rw [drawLoop] at h
    split at h
    · exact h
    · exact ih _ h

end

section

variable [HashFn] {db : Db V} {draws : ℕ → Draw} {now : ℤ} {e : Sds × V} {m n : ℕ}

def Db.stepped (db : Db V) : Db V := { db with dict := rehashStepIf db.dict }

theorem Db.Ok.stepped (h : db.Ok) : db.stepped.Is db.dict.get db.expires.get :=
  h.same (rehashStepIf_same h.dict) h.expires.same

theorem dbRandomKey_succ (rounds : ℕ) :
    dbRandomKey now draws (rounds + 1) db n =
      if db.dict.size = 0 then some (none, db, n)
      else
        match drawLoop db.stepped.dict draws rounds n with
        | none => none
        | some (e, n) =>
          if (dictFind db.stepped.expires e.1).isSome && checkIfExpired db.stepped e.1 now then
            dbRandomKey now draws rounds db.stepped n
          else some (some e.1, db.stepped, n) := rfl

theorem dbRandomKey_mono {x : Option Sds × Db V × ℕ} (rounds k : ℕ) :
    ∀ (db : Db V) (n : ℕ), dbRandomKey now draws rounds db n = some x →
      dbRandomKey now draws (rounds + k) db n = some x := by
  induction rounds with
  | zero => exact fun db n h => by cases h
  | succ rounds ih =>
    intro db n h
    rw [Nat.succ_add, dbRandomKey_succ]
    rw [dbRandomKey_succ] at h
    split_ifs at h ⊢
    · exact h
    · rcases hloop : drawLoop db.stepped.dict draws rounds n with _ | ⟨e, n'⟩
      · rw [hloop] at h
        cases h
      · rw [drawLoop_mono rounds k n hloop]
        simp only [hloop] at h ⊢
        split_ifs at h ⊢
        · exact ih _ _ h
        · exact h

theorem Db.Ok.expired_test (h : db.Ok) (key : Sds) :
    ((dictFind db.expires key).isSome && checkIfExpired db key now) =
      checkIfExpired db key now := by
  rcases hc : checkIfExpired db key now with _ | _
  · rw [Bool.and_false]
  · obtain ⟨t, ht, -⟩ := (h.checkIfExpired_eq key now).mp hc
    rw [h.expires.dictFind_isSome, ht, isSome_some, Bool.and_true]

theorem dbRandomKey_call (h : db.Ok) (h0 : db.dict.size ≠ 0) {rounds : ℕ}
    (hloop : drawLoop db.stepped.dict draws rounds n = some (e, m)) :
    dbRandomKey now draws (rounds + 1) db n =
      if checkIfExpired db e.1 now then dbRandomKey now draws rounds db.stepped m
      else some (some e.1, db.stepped, m) := by
  rw [dbRandomKey_succ, if_neg h0, hloop]
  dsimp only
  rw [h.stepped.ok.expired_test]
  rfl

def Found (db : Db V) (now : ℤ) (r : Option (Option Sds × Db V × ℕ)) : Prop :=
  ∃ key db' n', r = some (some key, db', n') ∧ (db.dict.get key).isSome = true ∧
    checkIfExpired db key now = false

theorem dbRandomKey_found (h : db.Ok) (h0 : db.dict.size ≠ 0) {rounds : ℕ}
    (hloop : drawLoop db.stepped.dict draws rounds n = some (e, m))
    (hrest : checkIfExpired db e.1 now = true →
      ∃ rounds, Found db.stepped now (dbRandomKey now draws rounds db.stepped m)) :
    ∃ rounds, Found db now (dbRandomKey now draws rounds db n) := by
  have hstep := h.stepped
  rcases hc : checkIfExpired db e.1 now with _ | _
  · refine ⟨rounds + 1, e.1, db.stepped, m, ?_, ?_, hc⟩
    · rw [dbRandomKey_call h h0 hloop, hc]
      rfl
    · have hmem := mem_of_drawLoop hstep.ok.dict _ _ hloop
      rw [← hstep.dict]
      exact Dict.get_isSome_of_mem hmem
  · obtain ⟨rounds', key, db', n', hr, hkey, hlive⟩ := hrest hc
    refine ⟨rounds + rounds' + 1, key, db', n', ?_, hstep.dict ▸ hkey, hlive⟩
    rw [dbRandomKey_call h h0 (drawLoop_mono rounds rounds' n hloop), hc, if_pos rfl, Nat.add_comm]
    exact dbRandomKey_mono _ _ _ _ hr

theorem dbRandomKey_stable (h : db.Ok) (hstable : db.stepped = db) {n0 : ℕ}
    (hdraw : db.dict.draw (draws n0) = some e) (hlive : checkIfExpired db e.1 now = false) (m : ℕ) :
    ∀ n, n + m = n0 → ∃ rounds, Found db now (dbRandomKey now draws rounds db n) := by
  have h0 : db.dict.size ≠ 0 := by
    rw [h.dict.size_eq]
    exact (length_pos_of_mem (mem_of_draw h.dict hdraw)).ne'
  induction m using Nat.strong_induction_on with
  | _ m ih =>
    intro n hn
    have hsome : (db.stepped.dict.draw (draws n0)).isSome = true := by
      rw [hstable, hdraw]
      rfl
    obtain ⟨rounds, e', n1, hloop, hle, hle', hdraw'⟩ := drawLoop_ends hsome m n hn
    refine dbRandomKey_found h h0 hloop fun hexp => ?_
    have hne : n1 ≠ n0 := by
      rintro rfl
      rw [hstable, hdraw] at hdraw'
      cases hdraw'
      rw [hlive] at hexp
      exact Bool.noConfusion hexp
    rw [hstable]
    exact ih (n0 - (n1 + 1)) (by omega) (n1 + 1) (by omega)

theorem dbRandomKey_ends {key : Sds} (left : ℕ) :
    ∀ (db : Db V) (n : ℕ), db.dict.rehashLeft = left → db.Ok → db.dict.Drawable →
      FairRun db.dict draws → (db.dict.get key).isSome = true → checkIfExpired db key now = false →
      ∃ rounds, Found db now (dbRandomKey now draws rounds db n) := by
  induction left using Nat.strong_induction_on with
  | _ left ih =>
    intro db n hleft h hd hfair hkey hlive
    obtain ⟨hd', hprogress⟩ := rehashStepIf_left hd
    have hstep := h.stepped
    have hkey' : key ∈ texts db.stepped.dict.entries := by
      rw [← Dict.get_isSome_iff, hstep.dict]
      exact hkey
    obtain ⟨e, he, rfl⟩ := mem_map.mp hkey'
    obtain ⟨n0, hn, hdraw⟩ := (hfair 1).exists_draw hd' he n
    rcases hprogress with hstable | hless
    · have hstable' : db.stepped = db := by rw [Db.stepped, hstable]
      have hdraw' : db.dict.draw (draws n0) = some e := by
        rw [← hstable]
        exact hdraw
      exact dbRandomKey_stable h hstable' hdraw' hlive (n0 - n) n (by omega)
    · have h0 : db.dict.size ≠ 0 := by
        rw [h.dict.size_eq, ← (rehashStepIf_same h.dict).perm.length_eq]
        exact (length_pos_of_mem he).ne'
      have hsome : (db.stepped.dict.draw (draws n0)).isSome = true := by
        rw [show db.stepped.dict = rehashStepIf^[1] db.dict from rfl, hdraw]
        rfl
      obtain ⟨rounds, e', n1, hloop, -⟩ := drawLoop_ends hsome (n0 - n) n (by omega)
      refine dbRandomKey_found h h0 hloop fun _ => ?_
      exact ih _ (hleft ▸ hless) db.stepped (n1 + 1) rfl hstep.ok hd' hfair.step
        (hstep.dict.symm ▸ hkey) hlive

theorem dbRandomKey_endless (rounds : ℕ) :
    ∀ (db : Db V) (n : ℕ), db.Ok → db.dict.size ≠ 0 →
      (∀ key, (db.dict.get key).isSome = true → checkIfExpired db key now = true) →
      dbRandomKey now draws rounds db n = none := by
  induction rounds with
  | zero => exact fun db n _ _ _ => rfl
  | succ rounds ih =>
    intro db n h h0 hall
    have hstep := h.stepped
    rcases hloop : drawLoop db.stepped.dict draws rounds n with _ | ⟨e, m⟩
    · rw [dbRandomKey_succ, if_neg h0, hloop]
    · have hget : (db.dict.get e.1).isSome = true := by
        rw [← hstep.dict]
        exact Dict.get_isSome_of_mem (mem_of_drawLoop hstep.ok.dict _ _ hloop)
      rw [dbRandomKey_call h h0 hloop, hall _ hget, if_pos rfl]
      refine ih db.stepped m hstep.ok ?_ fun key hkey => hall key (hstep.dict ▸ hkey)
      have hsame := rehashStepIf_same h.dict
      change (rehashStepIf db.dict).size ≠ 0
      rwa [hsame.wf.size_eq, hsame.perm.length_eq, ← h.dict.size_eq]

end

def allDraws (n : ℕ) : Draw :=
  let p := Nat.unpair (Nat.unpair n).1
  ⟨p.1, p.2⟩

/-- The same after one draw of another kind. -/
def drawsFrom (r : Draw) (n : ℕ) : Draw := if n = 0 then r else allDraws n

theorem drawsFrom_all (r : Draw) (a b N : ℕ) : ∃ n ≥ N, drawsFrom r n = ⟨a, b⟩ := by
  refine ⟨Nat.pair (Nat.pair a b) (N + 1), (Nat.le_succ N).trans (Nat.right_le_pair _ _), ?_⟩
  have hne : Nat.pair (Nat.pair a b) (N + 1) ≠ 0 :=
    Nat.ne_of_gt ((Nat.succ_pos N).trans_le (Nat.right_le_pair _ _))
  simp [drawsFrom, hne, allDraws]

section

variable [Text K] [HashFn] {d : Dict K V}

omit [Text K] [HashFn] in
theorem bucketNo_self (hs : d.Sized) {b : ℕ} (hb : b < d.buckets) : d.bucketNo b = b := by
  unfold Dict.buckets at hb
  unfold Dict.bucketNo
  split at hb
  · exact Nat.mod_eq_of_lt hb
  · obtain ⟨k, -, hk⟩ := hs.ht0 (ne_nil_of_length_pos (Nat.zero_lt_of_lt hb))
    rw [hk] at hb
    rw [Dictht.sizemask, hk, Nat.and_two_pow_sub_one_eq_mod, Nat.mod_eq_of_lt hb]

omit [Text K] [HashFn] in
theorem fair_drawsFrom (hs : d.Sized) (r : Draw) : d.Fair (drawsFrom r) := by
  intro b hb q hq N
  obtain ⟨n, hn, hdraw⟩ := drawsFrom_all r b q N
  exact ⟨n, hn, by rw [hdraw, bucketNo_self hs hb], by rw [hdraw, Nat.mod_eq_of_lt hq]⟩

theorem fairRun_drawsFrom (hd : d.Drawable) (r : Draw) : FairRun d (drawsFrom r) := by
  have hsized : ∀ k, (rehashStepIf^[k] d).Drawable := by
    intro k
    induction k with
    | zero => exact hd
    | succ k ih =>
      rw [iterate_succ_apply']
      exact (rehashStepIf_left ih).1
  exact fun k => fair_drawsFrom (hsized k).sized r

theorem exists_first_draw (hd : d.Drawable) {e : K × V} (he : e ∈ d.entries) :
    ∃ r, d.draw r = some e := by
  obtain ⟨n, -, hn⟩ := (fair_drawsFrom hd.sized ⟨0, 0⟩).exists_draw hd he 0
  exact ⟨_, hn⟩

end

section

variable [Host] {dbs : ℕ → Db V} {dictid : ℕ} {now : ℤ} {draws : ℕ → Draw}

/-- The key is in the database, and its deadline, if it has one, is not over. -/
def Db.Unexpired (db : Db V) (now : ℤ) (key : Sds) : Prop :=
  (db.dict.get key).isSome = true ∧ ∀ t, db.expires.get key = some t → now ≤ t

/-- The key is an unexpired one of the logical database. -/
def UnexpiredKey (dbs : ℕ → Db V) (dictid : ℕ) (now : ℤ) (key : Sds) : Prop :=
  ∃ i < Host.dbinum, (fetchInternalDbById dbs dictid i).Unexpired now key

/-- RANDOMKEY ends, replies nil if and only if there is no unexpired key, and replies only
unexpired keys. -/
def RandomkeyRight (dbs : ℕ → Db V) (dictid : ℕ) (now : ℤ) : Prop :=
  ∀ (random : ℕ) (draws : ℕ → Draw),
    (∀ i < Host.dbinum, FairRun (fetchInternalDbById dbs dictid i).dict draws) →
    ∃ rounds reply dbs', randomkeyCommand dictid now random draws rounds dbs = some (reply, dbs') ∧
      (reply = none ↔ ¬ ∃ key, UnexpiredKey dbs dictid now key) ∧
      ∀ key, reply = some key → UnexpiredKey dbs dictid now key

theorem randomkeyRetry_mono {x : Option Sds × (ℕ → Db V)} (rounds k retries : ℕ) :
    ∀ (dbs : ℕ → Db V) (idx n : ℕ),
      randomkeyRetry dictid now draws rounds retries dbs idx n = some x →
      randomkeyRetry dictid now draws (rounds + k) retries dbs idx n = some x := by
  induction retries with
  | zero =>
    intro dbs idx n h
    obtain ⟨y, hy, rfl⟩ := map_eq_some_iff.mp h
    exact map_eq_some_iff.mpr ⟨y, dbRandomKey_mono rounds k _ _ hy, rfl⟩
  | succ retries ih =>
    intro dbs idx n h
    rw [randomkeyRetry] at h ⊢
    rcases hr : dbRandomKey now draws rounds (fetchInternalDbById dbs dictid idx) n with _ | y
    · rw [hr] at h
      cases h
    · rw [dbRandomKey_mono rounds k _ _ hr]
      rw [hr] at h
      obtain ⟨_ | key, db, n'⟩ := y
      · exact ih _ _ _ h
      · exact h

theorem randomkeyRetry_found {idx n rounds n' : ℕ} {key : Sds} {db' : Db V}
    (h : dbRandomKey now draws rounds (fetchInternalDbById dbs dictid idx) n =
      some (some key, db', n')) (retries : ℕ) :
    randomkeyRetry dictid now draws rounds retries dbs idx n =
      some (some key, update dbs (idx + dictid * Host.dbinum) db') := by
  cases retries <;> simp only [randomkeyRetry, h, map_some]

theorem randomkeyRetry_none {idx n rounds : ℕ}
    (h : dbRandomKey now draws rounds (fetchInternalDbById dbs dictid idx) n = none) (retries : ℕ) :
    randomkeyRetry dictid now draws rounds retries dbs idx n = none := by
  cases retries <;> simp only [randomkeyRetry, h, map_none]

section

variable {idx : ℕ} (h0 : (fetchInternalDbById dbs dictid idx).dict.size = 0) (rounds n : ℕ)

include h0

theorem dbRandomKey_empty :
    dbRandomKey now draws (rounds + 1) (fetchInternalDbById dbs dictid idx) n =
      some (none, dbs (idx + dictid * Host.dbinum), n) := by
  rw [dbRandomKey_succ, if_pos h0]
  rfl

theorem randomkeyRetry_empty_zero :
    randomkeyRetry dictid now draws (rounds + 1) 0 dbs idx n = some (none, dbs) := by
  rw [randomkeyRetry, dbRandomKey_empty h0, map_some, update_eq_self]

theorem randomkeyRetry_empty_succ (hidx : idx < Host.dbinum) (retries : ℕ) :
    randomkeyRetry dictid now draws (rounds + 1) (retries + 1) dbs idx n =
      randomkeyRetry dictid now draws (rounds + 1) retries dbs ((idx + 1) % Host.dbinum) n := by
  have hnext : (if Host.dbinum ≤ idx + 1 then 0 else idx + 1) = (idx + 1) % Host.dbinum := by
    split_ifs with hle
    · rw [show idx + 1 = Host.dbinum by omega, Nat.mod_self]
    · rw [Nat.mod_eq_of_lt (by omega)]
  rw [randomkeyRetry, dbRandomKey_empty h0]
  simp only [update_eq_self, hnext]

end

/-- What RANDOMKEY comes to, if every database with keys has one that is not expired: a key that is
not expired, or nil when all databases from `idx` on are empty. -/
theorem randomkeyRetry_ends
    (hends : ∀ i < Host.dbinum, (fetchInternalDbById dbs dictid i).dict.size = 0 ∨ ∀ n, ∃ rounds,
      Found (fetchInternalDbById dbs dictid i) now
        (dbRandomKey now draws rounds (fetchInternalDbById dbs dictid i) n)) (retries : ℕ) :
    ∀ idx n, idx < Host.dbinum →
      (∃ rounds key dbs', randomkeyRetry dictid now draws rounds retries dbs idx n =
          some (some key, dbs') ∧ ∃ i < Host.dbinum,
          ((fetchInternalDbById dbs dictid i).dict.get key).isSome = true ∧
          checkIfExpired (fetchInternalDbById dbs dictid i) key now = false) ∨
      (randomkeyRetry dictid now draws 1 retries dbs idx n = some (none, dbs) ∧
        ∀ j ≤ retries, (fetchInternalDbById dbs dictid ((idx + j) % Host.dbinum)).dict.size =
          0) := by
  induction retries with
  | zero =>
    intro idx n hidx
    rcases hends idx hidx with h0 | hfound
    · refine .inr ⟨randomkeyRetry_empty_zero h0 0 n, fun j hj => ?_⟩
      rwa [Nat.le_zero.mp hj, Nat.add_zero, Nat.mod_eq_of_lt hidx]
    · obtain ⟨rounds, key, db', n', hr, hkey, hlive⟩ := hfound n
      exact .inl ⟨rounds, key, _, randomkeyRetry_found hr 0, idx, hidx, hkey, hlive⟩
  | succ retries ih =>
    intro idx n hidx
    rcases hends idx hidx with h0 | hfound
    · rcases ih ((idx + 1) % Host.dbinum) n (Nat.mod_lt _ Host.dbinum_pos) with
        ⟨rounds, key, dbs', hr, hkey⟩ | ⟨hr, hempty⟩
      · refine .inl ⟨rounds + 1, key, dbs', ?_, hkey⟩
        rw [randomkeyRetry_empty_succ h0 rounds n hidx]
        exact randomkeyRetry_mono rounds 1 _ _ _ _ hr
      · refine .inr ⟨(randomkeyRetry_empty_succ h0 0 n hidx retries).trans hr, fun j hj => ?_⟩
        rcases j with _ | j
        · rwa [Nat.add_zero, Nat.mod_eq_of_lt hidx]
        · have := hempty j (by omega)
          rwa [Nat.mod_add_mod, Nat.add_assoc, Nat.add_comm 1 j] at this
    · obtain ⟨rounds, key, db', n', hr, hkey, hlive⟩ := hfound n
      exact .inl ⟨rounds, key, _, randomkeyRetry_found hr _, idx, hidx, hkey, hlive⟩

structure DrawableDb (dbs : ℕ → Db V) (dictid : ℕ) : Prop extends LogicalDb dbs dictid where
  ranged : ∀ i < Host.dbinum, (fetchInternalDbById dbs dictid i).dict.Ranged

theorem DrawableDb.drawable (h : DrawableDb dbs dictid) (hi : i < Host.dbinum) :
    (fetchInternalDbById dbs dictid i).dict.Drawable :=
  ⟨(h.valid i hi).dict, (h.valid i hi).sized, h.ranged i hi⟩

def PositiveDeadlines (dbs : ℕ → Db V) (dictid : ℕ) (now : ℤ) : Prop :=
  ∀ i < Host.dbinum, ∀ key t, (fetchInternalDbById dbs dictid i).expires.get key = some t →
    t < now → 0 < t

def NoneAllExpired (dbs : ℕ → Db V) (dictid : ℕ) (now : ℤ) : Prop :=
  ∀ i < Host.dbinum, (fetchInternalDbById dbs dictid i).dict.size ≠ 0 →
    ∃ key, (fetchInternalDbById dbs dictid i).Unexpired now key

theorem PositiveDeadlines.unexpired_iff (hpos : PositiveDeadlines dbs dictid now)
    (h : DrawableDb dbs dictid) (hi : i < Host.dbinum) {key : Sds}
    (hkey : ((fetchInternalDbById dbs dictid i).dict.get key).isSome = true) :
    (fetchInternalDbById dbs dictid i).Unexpired now key ↔
      checkIfExpired (fetchInternalDbById dbs dictid i) key now = false := by
  rw [Bool.eq_false_iff, ne_eq, (h.valid i hi).checkIfExpired_eq]
  constructor
  · rintro ⟨-, hle⟩ ⟨t, ht, -, hlt⟩
    have := hle t ht
    omega
  · intro hnot
    refine ⟨hkey, fun t ht => ?_⟩
    by_contra hlt
    exact hnot ⟨t, ht, hpos i hi key t ht (by omega), by omega⟩

theorem randomkey_right (h : DrawableDb dbs dictid) (hpos : PositiveDeadlines dbs dictid now)
    (hnone : NoneAllExpired dbs dictid now) : RandomkeyRight dbs dictid now := by
  intro random draws hfair
  have hends : ∀ i < Host.dbinum, (fetchInternalDbById dbs dictid i).dict.size = 0 ∨ ∀ n, ∃ rounds,
      Found (fetchInternalDbById dbs dictid i) now
        (dbRandomKey now draws rounds (fetchInternalDbById dbs dictid i) n) := by
    intro i hi
    by_cases h0 : (fetchInternalDbById dbs dictid i).dict.size = 0
    · exact .inl h0
    · obtain ⟨key, hun⟩ := hnone i hi h0
      exact .inr fun n =>
        dbRandomKey_ends _ _ n rfl (h.valid i hi).toOk (h.drawable hi) (hfair i hi)
        hun.1 ((hpos.unexpired_iff h hi hun.1).mp hun)
  have hidx : random % Host.dbinum < Host.dbinum := Nat.mod_lt _ Host.dbinum_pos
  rcases randomkeyRetry_ends hends Host.dbinum (random % Host.dbinum) 0 hidx with
    ⟨rounds, key, dbs', hr, i, hi, hkey, hlive⟩ | ⟨hr, hempty⟩
  · have hun := (hpos.unexpired_iff h hi hkey).mpr hlive
    refine ⟨rounds, some key, dbs', hr, ⟨fun h => (by cases h), fun hno => ?_⟩, ?_⟩
    · exact absurd ⟨key, i, hi, hun⟩ hno
    · rintro key' ⟨⟩
      exact ⟨i, hi, hun⟩
  · refine ⟨1, none, dbs, hr, ⟨fun _ => ?_, fun _ => rfl⟩, fun key h => (by cases h)⟩
    rintro ⟨key, i, hi, hkey, -⟩
    -- all databases were tried, and were empty
    have hi0 := hempty ((i + Host.dbinum - random % Host.dbinum) % Host.dbinum)
      (Nat.mod_lt _ Host.dbinum_pos).le
    rw [Nat.add_mod_mod, Nat.add_sub_cancel' (by omega), Nat.add_mod_right,
      Nat.mod_eq_of_lt hi] at hi0
    rw [Dict.get_isSome_iff] at hkey
    obtain ⟨e, he, -⟩ := mem_map.mp hkey
    rw [(h.valid i hi).dict.size_eq] at hi0
    exact absurd hi0 (length_pos_of_mem he).ne'

theorem RandomkeyRight.positiveDeadlines (hright : RandomkeyRight dbs dictid now)
    (h : DrawableDb dbs dictid) : PositiveDeadlines dbs dictid now := by
  intro i hi key t ht hlt
  by_contra hneg
  have hok := (h.valid i hi).toOk
  have hkey := hok.subset key (by rw [ht]; rfl)
  have hstep := hok.stepped
  have hmem := hkey
  rw [← hstep.dict, Dict.get_isSome_iff] at hmem
  obtain ⟨e, he, rfl⟩ := mem_map.mp hmem
  -- the key is the first one drawn, in the first database
  obtain ⟨r, hdraw⟩ := exists_first_draw (rehashStepIf_left (h.drawable hi)).1 he
  have hloop : drawLoop (fetchInternalDbById dbs dictid i).stepped.dict (drawsFrom r) 1 0 =
      some (e, 1) := by
    rw [drawLoop, show drawsFrom r 0 = r from rfl]
    exact (by rw [Db.stepped, hdraw])
  have hlive : checkIfExpired (fetchInternalDbById dbs dictid i) e.1 now = false := by
    rw [Bool.eq_false_iff, ne_eq, hok.checkIfExpired_eq]
    rintro ⟨t', ht', h0, -⟩
    rw [show (fetchInternalDbById dbs dictid i).expires.get e.1 = some t from ht] at ht'
    cases ht'
    exact hneg h0
  have h0 : (fetchInternalDbById dbs dictid i).dict.size ≠ 0 := by
    rw [hok.dict.size_eq, ← (rehashStepIf_same hok.dict).perm.length_eq]
    exact (length_pos_of_mem he).ne'
  have hcall : dbRandomKey now (drawsFrom r) 2 _ 0 = _ := dbRandomKey_call hok h0 hloop
  rw [hlive] at hcall
  have hreply := randomkeyRetry_found hcall Host.dbinum
  obtain ⟨rounds, reply, dbs', hrun, -, hsound⟩ := hright i (drawsFrom r)
    fun j hj => fairRun_drawsFrom (h.drawable hj) r
  have hmore := randomkeyRetry_mono rounds 2 _ _ _ _ hrun
  rw [Nat.mod_eq_of_lt hi, Nat.add_comm, randomkeyRetry_mono 2 rounds _ _ _ _ hreply] at hmore
  cases hmore
  obtain ⟨j, hj, hkeyj, hdeadline⟩ := hsound e.1 rfl
  obtain rfl := h.one j hj i hi e.1 hkeyj hkey
  have := hdeadline t ht
  omega

theorem RandomkeyRight.noneAllExpired (hright : RandomkeyRight dbs dictid now)
    (h : DrawableDb dbs dictid) : NoneAllExpired dbs dictid now := by
  have hpos := hright.positiveDeadlines h
  intro i hi h0
  by_contra hno
  have hall : ∀ key, ((fetchInternalDbById dbs dictid i).dict.get key).isSome = true →
      checkIfExpired (fetchInternalDbById dbs dictid i) key now = true := by
    intro key hkey
    by_contra hlive
    exact hno ⟨key, (hpos.unexpired_iff h hi hkey).mpr (Bool.eq_false_iff.mpr hlive)⟩
  obtain ⟨rounds, reply, dbs', hrun, -⟩ := hright i (drawsFrom ⟨0, 0⟩)
    fun j hj => fairRun_drawsFrom (h.drawable hj) _
  rw [randomkeyCommand, Nat.mod_eq_of_lt hi,
    randomkeyRetry_none (dbRandomKey_endless rounds _ 0 (h.valid i hi).toOk h0 hall)] at hrun
  cases hrun

/-- RANDOMKEY is right, if and only if no deadline that is over is negative or 0 and no internal
database has keys that are all expired. -/
theorem randomkey_right_iff (h : DrawableDb dbs dictid) (now : ℤ) :
    RandomkeyRight dbs dictid now ↔
      PositiveDeadlines dbs dictid now ∧ NoneAllExpired dbs dictid now :=
  ⟨fun hright => ⟨hright.positiveDeadlines h, hright.noneAllExpired h⟩,
    fun ⟨hpos, hnone⟩ => randomkey_right h hpos hnone⟩

end

theorem randomkey_right_halfRehashed : @RandomkeyRight Unit twoDbs halfRehashed 0 5 := by
  let _ := twoDbs
  have hfetch : fetchInternalDbById halfRehashed 0 = halfRehashed := by
    funext i
    simp [fetchInternalDbById]
  have hexp : ∀ i key, (halfRehashed i).expires.get key = none := by
    intro i key
    rw [halfRehashed]
    split_ifs <;> rfl
  refine (randomkey_right_iff ⟨halfRehashed_logicalDb, fun i _ k hk => ?_⟩ 5).mpr
    ⟨fun i _ key t ht => ?_, fun i _ _ => ?_⟩
  · rw [hfetch, halfRehashed] at hk ⊢
    split_ifs at hk ⊢
    · cases hk
    · cases hk
      decide
  · rw [hfetch, hexp] at ht
    cases ht
  · rw [hfetch]
    by_cases hi : i = 0
    · refine ⟨[100], ?_, fun t ht => by rw [hexp] at ht; cases ht⟩
      rw [halfRehashed, if_pos hi]
      rfl
    · refine ⟨[97], ?_, fun t ht => by rw [hexp] at ht; cases ht⟩
      rw [halfRehashed, if_neg hi]
      rfl

/-- With an expired key alone in its database, a RANDOMKEY that begins there does not end, whatever
is drawn. -/
theorem randomkeyCommand_endless (draws : ℕ → Draw) (rounds : ℕ) :
    @randomkeyCommand Unit twoDbs 0 5 0 draws rounds (expiredIn 0) = none := by
  let _ := twoDbs
  refine randomkeyRetry_none (dbRandomKey_endless rounds expiredDb 0 expiredDb_valid.toOk
    (by decide) fun key hkey => ?_) _
  rw [Dict.get_isSome_iff] at hkey
  obtain rfl := mem_singleton.mp hkey
  decide

theorem randomkey_not_right : ¬ @RandomkeyRight Unit twoDbs (expiredIn 0) 0 5 := by
  let _ := twoDbs
  have hranged : ∀ i, (expiredIn 0 i).dict.Ranged := by
    intro i k hk
    rw [expiredIn] at hk
    split_ifs at hk <;> cases hk
  have hdrawable : DrawableDb (expiredIn 0) 0 :=
    ⟨expiredIn_logicalDb 0, fun i _ => by exact hranged i⟩
  intro hright
  obtain ⟨rounds, reply, dbs', hrun, -⟩ := hright 0 (drawsFrom ⟨0, 0⟩)
    fun j hj => fairRun_drawsFrom (hdrawable.drawable hj) _
  rw [randomkeyCommand_endless] at hrun
  cases hrun

end Vire
