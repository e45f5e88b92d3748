import Mathlib.Algebra.BigOperators.Intervals
import Mathlib.Data.List.Perm.Subperm
import Vire.Keyspace.Proofs.Scan

/-!
# SCAN and expired keys

A call collects keys from several internal databases and then looks for expired ones among them in
the database it scanned last.  So what it keeps back is the expired keys of the last database.
-/

namespace Vire

open List

variable {K V : Type}

section

variable [HashFn]

theorem scanLoop_sound [Text K] {d : Dict K V} (hw : d.WF) {emit : K × V → List Sds} {count : ℤ}
    {x : Sds} (n : ℕ) :
    ∀ (m : ℤ) (v : UInt64) (keys : List Sds), x ∈ (scanLoop d emit count n m v keys).keys →
      x ∈ keys ∨ ∃ e ∈ d.entries, x ∈ emit e := by
  induction n with
  | zero => exact fun m v keys hx => .inl hx
  | succ n ih =>
    intro m v keys hx
    have hstep : x ∈ keys ++ (dictScan d v).1.flatMap emit → x ∈ keys ∨
        ∃ e ∈ d.entries, x ∈ emit e := by
      intro hx
      rcases mem_append.mp hx with hx | hx
      · exact .inl hx
      · obtain ⟨e, he, hx⟩ := mem_flatMap.mp hx
        exact .inr ⟨e, mem_of_dictScan hw he, hx⟩
    rw [scanLoop_succ] at hx
    split_ifs at hx with hgo
    · exact (ih _ _ _ hx).elim hstep .inr
    · exact hstep hx

theorem scanDbs_sound {dbs : ℕ → Db V} {count : ℤ} {x : Sds} (n : ℕ) :
    ∀ (id : ℕ) (v : UInt64) (keys : List Sds), (∀ j, id ≤ j → j ≤ id + n → (dbs j).Ok) →
      id ≤ (scanDbs dbs count n id v keys).last ∧ (scanDbs dbs count n id v keys).last ≤ id + n ∧
      (x ∈ (scanDbs dbs count n id v keys).keys → x ∈ keys ∨
        ∃ j, j ≤ (scanDbs dbs count n id v keys).last ∧ id ≤ j ∧
          ((dbs j).dict.get x).isSome = true) := by
  have hdict : ∀ (id : ℕ) (v : UInt64) (keys : List Sds), (dbs id).Ok →
      x ∈ (scanDict (dbs id).dict (fun e => [e.1]) count v keys).keys →
      x ∈ keys ∨ ((dbs id).dict.get x).isSome = true := by
    intro id v keys hok hx
    refine (scanLoop_sound hok.dict _ _ _ _ hx).imp_right ?_
    rintro ⟨e, he, hx⟩
    rw [mem_singleton.mp hx]
    exact Dict.get_isSome_of_mem he
  induction n with
  | zero =>
    intro id v keys hok
    refine ⟨le_rfl, le_rfl, fun hx => ?_⟩
    exact (hdict id v keys (hok id le_rfl le_rfl) hx).imp_right fun h => ⟨id, le_rfl, le_rfl, h⟩
  | succ n ih =>
    intro id v keys hok
    have hfirst := hdict id v keys (hok id le_rfl (by omega))
    simp only [scanDbs]
    split_ifs with h0
    · obtain ⟨hlast, htop, hrest⟩ := ih (id + 1) 0
        (scanDict (dbs id).dict (fun e => [e.1]) count v keys).keys
        (fun j h1 h2 => hok j (by omega) (by omega))
      refine ⟨by dsimp only; omega, by dsimp only; omega, fun hx => ?_⟩
      rcases hrest hx with hx | ⟨j, hj, hid, hget⟩
      · exact (hfirst hx).imp_right fun h => ⟨id, by dsimp only; omega, le_rfl, h⟩
      · exact .inr ⟨j, hj, by omega, hget⟩
    · exact ⟨le_rfl,
        by dsimp only; omega, fun hx => (hfirst hx).imp_right fun h => ⟨id, le_rfl, le_rfl, h⟩⟩

omit [HashFn] in
theorem wrap_ne_zero {p : ℕ} (hp : p < 2 ^ 63) : wrap (-10 - p) ≠ 0 := by
  intro h0
  have hmod := Int.bmod_emod (x := -10 - (p : ℤ)) (m := 2 ^ 64)
  unfold wrap at h0
  rw [h0] at hmod
  norm_num at hmod
  omega

omit [HashFn] in
theorem wrap_pred (m : ℤ) : wrap (wrap m - 1) = wrap (m - 1) := by
  simp only [wrap, Int.bmod_sub_bmod]

variable {d : Dict Sds V}

/-- With the largest COUNT the loop goes through a dictionary.  What was found so far is a list of
entries without a duplicate, so it is not longer than the dictionary. -/
theorem scanLoop_all (hw : d.WF) (hs : d.Sized) {keys : List Sds}
    (hlen : keys.length + d.size < llongMax) (n : ℕ) :
    ∀ (v : UInt64) (l : List (Sds × V)), v.toNat < 2 ^ d.scanBits →
      2 ^ d.scanBits ≤ scanPos d.scanBits v + n → l.Nodup →
      (∀ e ∈ l, e ∈ d.entries ∧ d.scanPosOf e < scanPos d.scanBits v) →
      (scanLoop d (fun e => [e.1]) llongMax (n + 1) (wrap (-10 - (scanPos d.scanBits v : ℕ))) v
          (keys ++ l.map Prod.fst)).cursor = 0 ∧
        (scanLoop d (fun e => [e.1]) llongMax (n + 1) (wrap (-10 - (scanPos d.scanBits v : ℕ))) v
          (keys ++ l.map Prod.fst)).keys.length ≤ keys.length + d.size := by
  have hbits : d.scanBits ≤ 64 := hs.scanBits_le.trans (by norm_num)
  have hle63 : 2 ^ d.scanBits ≤ 2 ^ 63 := Nat.pow_le_pow_right (by norm_num) hs.scanBits_le
  induction n with
  | zero =>
    intro v l hv hn
    have := scanPos_lt hbits v
    omega
  | succ n ih =>
    intro v l hv hn hl hmem
    obtain ⟨honce, hpos⟩ := dictScan_once hw hs v
    have hnodup : (l ++ (dictScan d v).1).Nodup := by
      refine nodup_append.mpr ⟨hl, honce, ?_⟩
      rintro e he e' he' rfl
      have := (hmem e he).2
      have := hpos e he'
      omega
    have hsub : l ++ (dictScan d v).1 ⊆ d.entries :=
      append_subset.mpr ⟨fun e he => (hmem e he).1, fun e he => mem_of_dictScan hw he⟩
    have hshort : (l ++ (dictScan d v).1).length ≤ d.size := by
      rw [hw.size_eq]
      exact (subperm_of_subset hnodup hsub).length_le
    have hkeys : keys ++ l.map Prod.fst ++ (dictScan d v).1.flatMap (fun e => [e.1]) =
        keys ++ (l ++ (dictScan d v).1).map Prod.fst := by
      rw [map_append, map_eq_flatMap (l := (dictScan d v).1), append_assoc]
    have hcount : (keys ++ (l ++ (dictScan d v).1).map Prod.fst).length ≤ keys.length + d.size := by
      rw [length_append, length_map]
      omega
    rw [scanLoop_succ, hkeys]
    split_ifs with hgo
    · obtain ⟨hlt, hnext⟩ := (dictScan_step hw hs hv).1 hgo.1
      have hm : wrap (wrap (-10 - (scanPos d.scanBits v : ℕ)) - 1) =
          wrap (-10 - (scanPos d.scanBits (dictScan d v).2 : ℕ)) := by
        rw [wrap_pred, hnext]
        congr 1
        omega
      rw [hm]
      refine ih _ _ hlt (by omega) hnodup fun e he => ?_
      rcases mem_append.mp he with he' | he'
      · exact ⟨hsub he, by have := (hmem e he').2; omega⟩
      · exact ⟨hsub he, by have := hpos e he'; omega⟩
    · refine ⟨?_, hcount⟩
      by_contra hne
      have hlt := scanPos_lt hbits v
      refine hgo ⟨hne, wrap_ne_zero (by omega), ?_⟩
      omega

theorem scanDict_all (hw : d.WF) (hs : d.Sized) {keys : List Sds}
    (hlen : keys.length + d.size < llongMax) :
    (scanDict d (fun e => [e.1]) llongMax 0 keys).cursor = 0 ∧
      (scanDict d (fun e => [e.1]) llongMax 0 keys).keys.length ≤ keys.length + d.size := by
  have hm : wrap (llongMax * 10) = wrap (-10 - ((scanPos d.scanBits 0 : ℕ) : ℤ)) := by
    rw [scanPos_zero]
    decide
  have hall := scanLoop_all hw hs hlen (2 ^ d.scanBits + (d.ht0.size + d.ht1.size)) 0 []
    (Nat.two_pow_pos _) (by omega) nodup_nil (fun e he => absurd he not_mem_nil)
  have hrounds : d.ht0.size + d.ht1.size + 1 ≤ 2 ^ d.scanBits + (d.ht0.size + d.ht1.size) + 1 := by
    have := Nat.two_pow_pos d.scanBits
    omega
  rwa [map_nil, append_nil, ← hm, scanDict_eq hw hs _ _ _ hrounds] at hall

theorem scanDbs_all {dbs : ℕ → Db V} {top : ℕ} (hdbs : ∀ j ≤ top, (dbs j).Valid) (n : ℕ) :
    ∀ (id : ℕ) (keys : List Sds), id + n = top →
      keys.length + ∑ j ∈ Finset.Ico id (top + 1), (dbs j).dict.size < llongMax →
      (scanDbs dbs llongMax n id 0 keys).cursor = 0 ∧
        (scanDbs dbs llongMax n id 0 keys).last = top := by
  induction n with
  | zero =>
    intro id keys hid hlen
    rw [Finset.sum_Ico_succ_top (by omega), Nat.cast_add] at hlen
    obtain rfl : id = top := hid
    have hv := hdbs id le_rfl
    exact ⟨(scanDict_all hv.dict hv.sized (by omega)).1, rfl⟩
  | succ n ih =>
    intro id keys hid hlen
    rw [Finset.sum_eq_sum_Ico_succ_bot (by omega), Nat.cast_add] at hlen
    have hv := hdbs id (by omega)
    have hshort : (keys.length : ℤ) + (dbs id).dict.size < llongMax := by omega
    obtain ⟨h0, hlen'⟩ := scanDict_all hv.dict hv.sized hshort
    simp only [scanDbs, h0, if_true]
    exact ih (id + 1) _ (by omega) (by omega)

end

section

variable [Host] {dbs : ℕ → Db V} {dictid : ℕ}

/-- The clients of a logical database; the `scanid` of a client is a number of an internal one. -/
structure ScanClient.On (c : ScanClient) (dictid : ℕ) : Prop where
  dictid : c.dictid = dictid
  scanid : ∀ id, c.scanid = some id → id < Host.dbinum

theorem ScanClient.On.resume_lt {c : ScanClient} (h : c.On dictid) (v : UInt64) :
    c.resume v < Host.dbinum := by
  unfold ScanClient.resume
  split_ifs
  · exact Host.dbinum_pos
  · rcases hid : c.scanid with _ | id
    · exact Host.dbinum_pos
    · exact h.scanid id hid

/-- No key of a reply to SCAN is past its deadline. -/
def ScanUnexpired (dbs : ℕ → Db V) (dictid : ℕ) (now : ℤ) : Prop :=
  ∀ c : ScanClient, c.On dictid → ∀ (argv : List Sds) (cursor : Sds) (keys : List Sds),
    (scanCommand dbs now c argv).reply = .page cursor keys →
    ∀ key ∈ keys, ∀ i < Host.dbinum, ∀ t,
      (fetchInternalDbById dbs dictid i).expires.get key = some t → now ≤ t

theorem LogicalDb.mem_reply (h : LogicalDb dbs dictid) {now : ℤ} {c : ScanClient}
    (hc : c.On dictid) {argv : List Sds} {cursor : Sds} {keys : List Sds}
    (hreply : (Vire.scanCommand dbs now c argv).reply = .page cursor keys) {key : Sds}
    (hkey : key ∈ keys) :
    ∃ j last, j ≤ last ∧ last < Host.dbinum ∧
      ((fetchInternalDbById dbs dictid j).dict.get key).isSome = true ∧
      checkIfExpired (fetchInternalDbById dbs dictid last) key now = false := by
  unfold Vire.scanCommand at hreply
  rcases hv : parseScanCursor (argv.headD []) with e | v
  · simp only [hv] at hreply
    cases hreply
  rcases ho : parseScanOptions argv.tail .default with e | o
  · simp only [hv, ho] at hreply
    cases hreply
  simp only [hv, ho, hc.dictid, ScanReply.page.injEq] at hreply
  rw [← hreply.2, scanFilter, mem_filter, Bool.and_eq_true, Bool.not_eq_true'] at hkey
  obtain ⟨hfound, -, hlast⟩ := hkey
  have hid := hc.resume_lt v
  have hok : ∀ j, c.resume v ≤ j → j ≤ c.resume v + (Host.dbinum - 1 - c.resume v) →
      (fetchInternalDbById dbs dictid j).Ok := fun j _ hj => (h.valid j (by omega)).toOk
  obtain ⟨-, htop, hsound⟩ := scanDbs_sound _ (c.resume v) v [] hok
  obtain ⟨j, hj, -, hget⟩ := (hsound hfound).resolve_left not_mem_nil
  exact ⟨j, _, hj, by omega, hget, hlast⟩

theorem LogicalDb.scan_all (h : LogicalDb dbs dictid) (hsmall : ∑ i ∈ Finset.range Host.dbinum,
      (fetchInternalDbById dbs dictid i).dict.size < llongMax) (now : ℤ) :
    ∃ cursor keys, (Vire.scanCommand dbs now ⟨dictid, none⟩
        [ll2string 0, ascii "count".toList, ll2string llongMax]).reply = .page cursor keys ∧
      ∀ i < Host.dbinum, ∀ key, ((fetchInternalDbById dbs dictid i).dict.get key).isSome = true →
        checkIfExpired (fetchInternalDbById dbs dictid (Host.dbinum - 1)) key now = false →
        key ∈ keys := by
  have hpos : 0 < Host.dbinum := Host.dbinum_pos
  have hvalid : ∀ j ≤ Host.dbinum - 1, (fetchInternalDbById dbs dictid j).Valid :=
    fun j hj => h.valid j (by omega)
  have hlen : (([] : List Sds).length : ℤ) + ∑ j ∈ Finset.Ico 0 (Host.dbinum - 1 + 1),
      (fetchInternalDbById dbs dictid j).dict.size < llongMax := by
    rw [Nat.sub_add_cancel hpos, ← Finset.range_eq_Ico, length_nil]
    omega
  obtain ⟨hzero, hlast⟩ := scanDbs_all hvalid (Host.dbinum - 1) 0 [] (by omega) hlen
  have hfound :=
    scanDbs_spec hvalid llongMax (Host.dbinum - 1) 0 0 [] (by omega) (Nat.two_pow_pos _)
  have hcall : (Vire.scanCommand dbs now ⟨dictid, none⟩
      [ll2string 0, ascii "count".toList, ll2string llongMax]).reply =
      let r := scanDbs (fetchInternalDbById dbs dictid) llongMax (Host.dbinum - 1) 0 0 []
      .page (ll2string (wrap r.cursor.toNat))
        (scanFilter ⟨llongMax, none⟩ (fetchInternalDbById dbs dictid r.last) now r.keys) := by
    rfl
  refine ⟨_, _, hcall, fun i hi key hkey hnow => ?_⟩
  rw [Dict.get_isSome_iff] at hkey
  obtain ⟨e, he, rfl⟩ := mem_map.mp hkey
  have hmem := hfound.finds i (by omega) e he ?_ fun hne => absurd hzero hne
  · simp only [scanFilter, mem_filter, Bool.true_and, Bool.not_eq_true']
    refine ⟨hmem, ?_⟩
    rw [← hlast] at hnow
    exact hnow
  · rcases Nat.eq_zero_or_pos i with rfl | hi0
    · exact .inr ⟨rfl, by simp [scanPos_zero]⟩
    · exact .inl hi0

/-- SCAN never returns an expired key, if and only if the expired keys are in the last internal
database and their deadlines are positive. -/
theorem scan_unexpired_iff (h : LogicalDb dbs dictid) (hsmall : ∑ i ∈ Finset.range Host.dbinum,
      (fetchInternalDbById dbs dictid i).dict.size < llongMax) (now : ℤ) :
    ScanUnexpired dbs dictid now ↔
      ∀ i < Host.dbinum, ∀ key t, (fetchInternalDbById dbs dictid i).expires.get key = some t →
        t < now → i = Host.dbinum - 1 ∧ 0 < t := by
  constructor
  · intro hnone i hi key t ht hlt
    obtain ⟨cursor, keys, hreply, hkeys⟩ := h.scan_all hsmall now
    have hkey := (h.valid i hi).subset key (by rw [ht]; rfl)
    by_contra hbad
    have hkept :
        checkIfExpired (fetchInternalDbById dbs dictid (Host.dbinum - 1)) key now = false := by
      by_cases hi' : i = Host.dbinum - 1
      · rw [Bool.eq_false_iff, ne_eq, (h.valid _ (by omega)).checkIfExpired_eq, ← hi']
        rintro ⟨t', ht', h0, -⟩
        rw [ht] at ht'
        cases ht'
        exact hbad ⟨hi', h0⟩
      · exact h.checkIfExpired_ne (by omega) hi (Ne.symm hi') hkey now
    have hle := hnone ⟨dictid, none⟩ ⟨rfl, fun id h => by cases h⟩ _ _ _ hreply key
      (hkeys i hi key hkey hkept) i hi t ht
    omega
  · intro hcond c hc argv cursor keys hreply key hkey i hi t ht
    by_contra hlt
    obtain ⟨hlast, h0⟩ := hcond i hi key t ht (by omega)
    obtain ⟨j, last, hj, hl, hget, hkept⟩ := h.mem_reply hc hreply hkey
    have hij := h.one i hi j (by omega) key ((h.valid i hi).subset key (by rw [ht]; rfl)) hget
    obtain rfl : last = i := by omega
    have hexp := ((h.valid last hi).checkIfExpired_eq key now).mpr ⟨t, ht, h0, by omega⟩
    rw [hkept] at hexp
    exact Bool.noConfusion hexp

end

def expiredDb : Db Unit :=
  ⟨⟨⟨[[([100], ())], [], [], []], 1⟩, .reset, none, 0⟩,
    ⟨⟨[[([100], 1)], [], [], []], 1⟩, .reset, none, 0⟩⟩

def expiredIn (n i : ℕ) : Db Unit := if i = n then expiredDb else redisDbInit

theorem expiredDb_valid : @Db.Valid Unit twoDbs.toHashFn expiredDb := by
  let _ := twoDbs
  have hexpires : expiredDb.expires.WF :=
    ⟨Dictht.wf_of_lt (by decide) rfl, Dictht.wf_reset, by decide, fun _ => rfl,
      fun h => absurd h (by decide), fun r i h => absurd h (by simp [expiredDb])⟩
  refine ⟨⟨⟨Dictht.wf_of_lt (by decide) rfl, Dictht.wf_reset, by decide, fun _ => rfl,
    fun h => absurd h (by decide), fun r i h => absurd h (by simp [expiredDb])⟩, hexpires, ?_⟩,
    ⟨fun _ => ⟨2, by decide, rfl⟩, fun h => absurd rfl h⟩⟩
  intro key hkey
  rw [Dict.get_isSome_iff] at hkey ⊢
  exact hkey

theorem expiredIn_logicalDb (n : ℕ) : @LogicalDb Unit twoDbs (expiredIn n) 0 := by
  let _ := twoDbs
  have hfetch : fetchInternalDbById (expiredIn n) 0 = expiredIn n := by
    funext i
    simp [fetchInternalDbById]
  have hget : ∀ i key, ((expiredIn n i).dict.get key).isSome = true → i = n := by
    intro i key hkey
    by_contra hne
    rw [expiredIn, if_neg hne] at hkey
    exact Bool.noConfusion hkey
  refine ⟨fun i _ => ?_, fun i _ j _ key hi hj => ?_⟩
  · rw [hfetch, expiredIn]
    split_ifs
    · exact expiredDb_valid
    · exact ⟨redisDbInit_is.ok, Dict.sized_create⟩
  · rw [hget i key hi, hget j key hj]

theorem scan_unexpired_last : @ScanUnexpired Unit twoDbs (expiredIn 1) 0 5 := by
  let _ := twoDbs
  refine (scan_unexpired_iff (expiredIn_logicalDb 1) (by decide) 5).mpr fun i hi key t ht _ => ?_
  have hfetch : fetchInternalDbById (expiredIn 1) 0 i = expiredIn 1 i := by
    simp [fetchInternalDbById]
  rw [hfetch, expiredIn] at ht
  split_ifs at ht with hi1
  · refine ⟨hi1, ?_⟩
    obtain ⟨e, he, rfl⟩ := Option.map_eq_some_iff.mp ht
    have hmem := (mem_of_assoc he).1
    rw [mem_singleton.mp hmem]
    decide
  · cases ht

/-- With the expired key in the first database, SCAN returns it. -/
theorem scanCommand_expired :
    (@scanCommand Unit twoDbs (expiredIn 0) 5 ⟨0, none⟩ [[48]]).reply = .page [48] [[100]] ∧
      (expiredIn 0 0).expires.get [100] = some 1 := by
  decide +kernel

end Vire
