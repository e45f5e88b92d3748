import Vire.Decimal
import Vire.Dict.Proofs.Scan
import Vire.Keyspace.Proofs.Db
import Vire.Keyspace.Scan

/-!
# Following the cursor of SCAN

A scan stands at an internal database and a position in the order of its buckets.  A call returns
the keys from the place it starts at up to the place it leaves, which the client's `scanid` and the
cursor tell.  It moves on with every call, so the cursor is 0 in the end.
-/

namespace Vire

open List

variable {K V : Type}

section

variable [Text K] [HashFn] {d : Dict K V} {v : UInt64}

theorem dictScan_step (hw : d.WF) (hs : d.Sized) (hv : v.toNat < 2 ^ d.scanBits) :
    ((dictScan d v).2 ≠ 0 → (dictScan d v).2.toNat < 2 ^ d.scanBits ∧
      scanPos d.scanBits (dictScan d v).2 = scanPos d.scanBits v + 1) ∧
    ∀ e ∈ d.entries, scanPos d.scanBits v ≤ d.scanPosOf e →
      ((dictScan d v).2 = 0 ∨ d.scanPosOf e < scanPos d.scanBits (dictScan d v).2) →
      e ∈ (dictScan d v).1 := by
  by_cases h0 : d.size = 0
  · have hnil : d.entries = [] := length_eq_zero_iff.mp (hw.size_eq ▸ h0)
    simp [dictScan, h0, hnil]
  · have hk : d.scanBits ≤ 64 := hs.scanBits_le.trans (by norm_num)
    rw [dictScan_next hw hs h0]
    refine ⟨fun hne => ⟨scanNext_lt hk v, scanPos_scanNext hk hne⟩, fun e he hle hlt => ?_⟩
    have hskip : ¬ d.Skips v e := Dict.not_skips_of_lt (by rwa [hs.small hw h0])
    refine mem_dictScan hw hs he hskip (hle.antisymm' ?_)
    rcases hlt with hz | hlt
    · have := (scanNext_eq_zero_iff hk v).mp hz
      have := scanPos_lt hk (UInt64.ofNat (HashFn.hash (text e.1)))
      unfold Dict.scanPosOf
      omega
    · by_cases hz : scanNext d.scanBits v = 0
      · rw [hz, scanPos_zero] at hlt
        omega
      · rw [scanPos_scanNext hk hz] at hlt
        omega

/-- Going from the cursor `v` to the cursor `w`, the elements in between came to the `keys`. -/
structure ScannedFrom (d : Dict K V) (emit : K × V → List Sds) (v : UInt64) (keys : List Sds)
    (w : UInt64) (keys' : List Sds) : Prop where
  keeps : keys ⊆ keys'
  lt : w.toNat < 2 ^ d.scanBits
  moves : w ≠ 0 → scanPos d.scanBits v < scanPos d.scanBits w
  finds : ∀ e ∈ d.entries, scanPos d.scanBits v ≤ d.scanPosOf e →
    (w = 0 ∨ d.scanPosOf e < scanPos d.scanBits w) → emit e ⊆ keys'

variable {emit : K × V → List Sds} {u v w : UInt64} {keys keys' keys'' : List Sds}

theorem scannedFrom_dictScan (hw : d.WF) (hs : d.Sized) (hv : v.toNat < 2 ^ d.scanBits) :
    ScannedFrom d emit v keys (dictScan d v).2 (keys ++ (dictScan d v).1.flatMap emit) := by
  obtain ⟨hnext, hpass⟩ := dictScan_step hw hs hv
  refine ⟨subset_append_left _ _, ?_, fun hne => ?_, fun e he hle hlt x hx => ?_⟩
  · by_cases h0 : (dictScan d v).2 = 0
    · rw [h0]
      exact Nat.two_pow_pos _
    · exact (hnext h0).1
  · rw [(hnext hne).2]
    exact Nat.lt_succ_self _
  · exact mem_append_right _ (mem_flatMap.mpr ⟨e, hpass e he hle hlt, hx⟩)

theorem ScannedFrom.trans (h : ScannedFrom d emit u keys v keys')
    (h' : ScannedFrom d emit v keys' w keys'') (hne : v ≠ 0) :
    ScannedFrom d emit u keys w keys'' := by
  refine ⟨Subset.trans h.keeps h'.keeps, h'.lt,
    fun hw => (h.moves hne).trans (h'.moves hw), ?_⟩
  intro e he hle hlt
  by_cases hev : d.scanPosOf e < scanPos d.scanBits v
  · exact Subset.trans (h.finds e he hle (.inr hev)) h'.keeps
  · exact h'.finds e he (Nat.le_of_not_lt hev) hlt

omit [Text K] in
theorem scanLoop_succ (count : ℤ) (n : ℕ) (m : ℤ) (v : UInt64) (keys : List Sds) :
    scanLoop d emit count (n + 1) m v keys =
      if (dictScan d v).2 ≠ 0 ∧ m ≠ 0 ∧ (keys ++ (dictScan d v).1.flatMap emit).length < count then
        { scanLoop d emit count n (wrap (m - 1)) (dictScan d v).2
            (keys ++ (dictScan d v).1.flatMap emit) with
          cursors := v :: (scanLoop d emit count n (wrap (m - 1)) (dictScan d v).2
            (keys ++ (dictScan d v).1.flatMap emit)).cursors }
      else ⟨(dictScan d v).2, keys ++ (dictScan d v).1.flatMap emit, [v]⟩ := rfl

theorem scanLoop_spec (hw : d.WF) (hs : d.Sized) (count : ℤ) (n : ℕ) :
    ∀ (m : ℤ) (v : UInt64) (keys : List Sds), v.toNat < 2 ^ d.scanBits →
      ScannedFrom d emit v keys (scanLoop d emit count (n + 1) m v keys).cursor
        (scanLoop d emit count (n + 1) m v keys).keys := by
  induction n with
  | zero =>
    intro m v keys hv
    have hstep : ScannedFrom d emit v keys _ _ := scannedFrom_dictScan hw hs hv
    rw [scanLoop_succ]
    split_ifs <;> exact hstep
  | succ n ih =>
    intro m v keys hv
    have hstep : ScannedFrom d emit v keys _ _ := scannedFrom_dictScan hw hs hv
    rw [scanLoop_succ]
    split_ifs with hgo
    · exact hstep.trans (ih _ _ _ hstep.lt) hgo.1
    · exact hstep

theorem scanLoop_rounds (hw : d.WF) (hs : d.Sized) (h0 : d.size ≠ 0) (count : ℤ) (n : ℕ) :
    ∀ (m : ℤ) (v : UInt64) (keys : List Sds), 2 ^ d.scanBits ≤ scanPos d.scanBits v + n →
      scanLoop d emit count (n + 1) m v keys = scanLoop d emit count n m v keys := by
  have hk : d.scanBits ≤ 64 := hs.scanBits_le.trans (by norm_num)
  induction n with
  | zero =>
    intro m v keys hn
    have := scanPos_lt hk v
    omega
  | succ n ih =>
    intro m v keys hn
    rw [scanLoop_succ count (n + 1) m v keys, scanLoop_succ count n m v keys]
    split_ifs with hgo
    · have hpos : scanPos d.scanBits (dictScan d v).2 = scanPos d.scanBits v + 1 := by
        rw [dictScan_next hw hs h0] at hgo ⊢
        exact scanPos_scanNext hk hgo.1
      rw [ih _ _ _ (by omega)]
    · rfl

/-- The loop never runs out of rounds: with more of them it would do the same. -/
theorem scanLoop_enough (hw : d.WF) (hs : d.Sized) (count m : ℤ) (v : UInt64)
    (keys : List Sds) {n : ℕ} (hn : d.ht0.size + d.ht1.size + 1 ≤ n) :
    scanLoop d emit count n m v keys =
      scanLoop d emit count (d.ht0.size + d.ht1.size + 1) m v keys := by
  by_cases h0 : d.size = 0
  · obtain ⟨n, rfl⟩ := Nat.exists_eq_add_of_le' (show 1 ≤ n by omega)
    simp [scanLoop_succ, dictScan, h0]
  · have hsmall : d.small.size ≤ d.ht0.size + d.ht1.size := by
      unfold Dict.small
      split_ifs <;> omega
    rw [hs.small hw h0] at hsmall
    induction n, hn using Nat.le_induction with
    | base => rfl
    | succ n hn ih =>
      rw [scanLoop_rounds hw hs h0 count n _ _ _ (by omega)]
      exact ih

theorem scanDict_eq (hw : d.WF) (hs : d.Sized) (count : ℤ) (v : UInt64) (keys : List Sds) {n : ℕ}
    (hn : d.ht0.size + d.ht1.size + 1 ≤ n) :
    scanLoop d emit count n (wrap (count * 10)) v keys = scanDict d emit count v keys :=
  scanLoop_enough hw hs count _ v keys hn

/-- A database in order, whose table is not too large for a cursor. -/
structure Db.Valid (db : Db V) : Prop extends db.Ok where
  sized : db.dict.Sized

/-- A scan that stands at cursor `v` of database `id` has entry `e` of database `j` before it. -/
def Ahead (dbs : ℕ → Db V) (id : ℕ) (v : UInt64) (j : ℕ) (e : Sds × V) : Prop :=
  id < j ∨ id = j ∧ scanPos (dbs j).dict.scanBits v ≤ (dbs j).dict.scanPosOf e

/-- A scan of the databases from cursor `v` of number `id` on ended with `r`, the last possible
one being number `top`. -/
structure ScannedDbsFrom (dbs : ℕ → Db V) (top id : ℕ) (v : UInt64) (keys : List Sds)
    (r : ScannedDbs) : Prop where
  keeps : keys ⊆ r.keys
  last : r.last ≤ top
  finished : r.cursor = 0 → r.scanid = none
  stands : r.cursor ≠ 0 → r.scanid = some r.last ∧
    r.cursor.toNat < 2 ^ (dbs r.last).dict.scanBits ∧
    (id < r.last ∨ id = r.last ∧
      scanPos (dbs r.last).dict.scanBits v < scanPos (dbs r.last).dict.scanBits r.cursor)
  finds : ∀ j ≤ top, ∀ e ∈ (dbs j).dict.entries, Ahead dbs id v j e →
    (r.cursor ≠ 0 → ¬ Ahead dbs r.last r.cursor j e) → e.1 ∈ r.keys

variable {dbs : ℕ → Db V} {count : ℤ}

theorem scanDict_spec {db : Db V} (hv : db.Valid)
    (hlt : v.toNat < 2 ^ db.dict.scanBits) (count : ℤ) (keys : List Sds) :
    ScannedFrom db.dict (fun e => [e.1]) v keys
      (scanDict db.dict (fun e => [e.1]) count v keys).cursor
      (scanDict db.dict (fun e => [e.1]) count v keys).keys :=
  scanLoop_spec hv.dict hv.sized count _ _ v keys hlt

theorem ScannedFrom.inDbs {top id : ℕ} {w : UInt64} {keys keys' : List Sds}
    (h : ScannedFrom (dbs id).dict (fun e => [e.1]) v keys w keys') (hid : id ≤ top)
    (hend : w = 0 → id = top) (visited : List (ℕ × List UInt64)) :
    ScannedDbsFrom dbs top id v keys
      ⟨if w = 0 then none else some id, w, keys', id, visited⟩ := by
  refine ⟨h.keeps, hid, fun h0 => if_pos h0, fun hne => ?_, fun j hj e he ha hna => ?_⟩
  · exact ⟨if_neg hne, h.lt, .inr ⟨rfl, h.moves hne⟩⟩
  · rcases ha with hlt | ⟨rfl, hle⟩
    · have hw : w ≠ 0 := fun h0 => by have := hend h0; omega
      exact absurd (.inl hlt) (hna hw)
    · refine h.finds e he hle ?_ (mem_singleton.mpr rfl)
      by_cases hw : w = 0
      · exact .inl hw
      · exact .inr (Nat.lt_of_not_le fun h' => hna hw (.inr ⟨rfl, h'⟩))

theorem scanDbs_spec {top : ℕ} (hdbs : ∀ j ≤ top, (dbs j).Valid) (count : ℤ) (n : ℕ) :
    ∀ (id : ℕ) (v : UInt64) (keys : List Sds), id + n = top →
      v.toNat < 2 ^ (dbs id).dict.scanBits →
      ScannedDbsFrom dbs top id v keys (scanDbs dbs count n id v keys) := by
  induction n with
  | zero =>
    intro id v keys hid hv
    exact (scanDict_spec (hdbs id (by omega)) hv count keys).inDbs (by omega) (fun _ => hid) _
  | succ n ih =>
    intro id v keys hid hv
    have hfirst := scanDict_spec (hdbs id (by omega)) hv count keys
    simp only [scanDbs]
    split_ifs with h0
    · have hrest := ih (id + 1) 0
        (scanDict (dbs id).dict (fun e => [e.1]) count v keys).keys (by omega) (Nat.two_pow_pos _)
      refine ⟨Subset.trans hfirst.keeps hrest.keeps, hrest.last, hrest.finished,
        fun hne => ?_, fun j hj e he ha hna => ?_⟩
      · obtain ⟨hid', hlt, hle⟩ := hrest.stands hne
        refine ⟨hid', hlt, .inl ?_⟩
        dsimp only
        omega
      · rcases ha with hlt | ⟨rfl, hle⟩
        · refine hrest.finds j hj e he ?_ hna
          rcases Nat.lt_or_eq_of_le hlt with h | rfl
          · exact .inl h
          · exact .inr ⟨rfl, by simp [scanPos_zero]⟩
        · exact hrest.keeps (hfirst.finds e he hle (.inl h0) (mem_singleton.mpr rfl))
    · have hend : ScannedDbsFrom dbs top id v keys _ :=
        hfirst.inDbs (by omega) (fun h => absurd h h0)
          [(id, (scanDict (dbs id).dict (fun e => [e.1]) count v keys).cursors)]
      rwa [if_neg h0] at hend

end

variable {v : UInt64}

theorem parseScanCursor_decimal (hv : v.toNat < 2 ^ 63) :
    parseScanCursor (ll2string (wrap v.toNat)) = .ok v := by
  have hwrap : wrap v.toNat = v.toNat := by
    unfold wrap
    rw [Int.bmod_eq_of_le] <;> omega
  have hnum := numeral_ll2string v.toNat
  have hread := (strtoll_eq_iff _ _).mpr (.inl hnum)
  have hspace : ((ll2string v.toNat).head?.map isspace).getD false = false := by
    rcases h : (ll2string v.toNat).head? with _ | b
    · rfl
    · exact isspace_of_mem_numeral (mem_numeral hnum (mem_of_mem_head? h))
  have hlt : ¬ 2 ^ 64 ≤ (v.toNat : ℤ).natAbs := by
    omega
  have hof : UInt64.ofInt (v.toNat : ℤ) = v := by
    have hmod : ((v.toNat : ℤ) % 2 ^ 64).toNat = v.toNat := by omega
    rw [UInt64.ofInt, hmod, UInt64.ofNat_toNat]
  rw [parseScanCursor, hwrap, cstr_eq_self (whole_of_numeral hnum).2, hread, hspace,
    if_neg (by simpa using hlt), hof]

section

variable [Host]

/-- A logical database in any state its internal databases can be in: every key is in one. -/
structure LogicalDb (dbs : ℕ → Db V) (dictid : ℕ) : Prop where
  valid : ∀ i < Host.dbinum, (fetchInternalDbById dbs dictid i).Valid
  one : ∀ i < Host.dbinum, ∀ j < Host.dbinum, ∀ key,
    ((fetchInternalDbById dbs dictid i).dict.get key).isSome = true →
    ((fetchInternalDbById dbs dictid j).dict.get key).isSome = true → i = j

structure ScanCall where
  now : ℤ
  options : List Sds

/-- A client sends a cursor and, until it gets 0, the cursor it got, at most `n` times: the keys it
got, after those it had. -/
def scanAll (dbs : ℕ → Db V) : ℕ → (ℕ → ScanCall) → ScanClient → Sds → List Sds → Option (List Sds)
  | 0, _, _, _, _ => none
  | n + 1, calls, c, cursor, got =>
    let r := scanCommand dbs (calls 0).now c (cursor :: (calls 0).options)
    match r.reply with
    | .error _ => none
    | .page cursor keys =>
      if cursor = ll2string 0 then some (got ++ keys)
      else scanAll dbs n (fun m => calls (m + 1)) r.client cursor (got ++ keys)

variable {dbs : ℕ → Db V} {dictid : ℕ}

theorem LogicalDb.checkIfExpired_ne (h : LogicalDb dbs dictid) {i j : ℕ} (hi : i < Host.dbinum)
    (hj : j < Host.dbinum) (hne : i ≠ j) {key : Sds}
    (hkey : ((fetchInternalDbById dbs dictid j).dict.get key).isSome = true) (now : ℤ) :
    checkIfExpired (fetchInternalDbById dbs dictid i) key now = false := by
  rw [Bool.eq_false_iff, ne_eq, (h.valid i hi).checkIfExpired_eq]
  rintro ⟨t, ht, -⟩
  have hin := (h.valid i hi).subset key (by rw [ht]; rfl)
  exact hne (h.one i hi j hj key hin hkey)

theorem LogicalDb.scanCommand (h : LogicalDb dbs dictid) {c : ScanClient} (hc : c.dictid = dictid)
    {cursor : Sds} (hcursor : parseScanCursor cursor = .ok v) (hid : c.resume v < Host.dbinum)
    (hv : v.toNat < 2 ^ (fetchInternalDbById dbs dictid (c.resume v)).dict.scanBits)
    {options : List Sds} {o : ScanOptions} (ho : parseScanOptions options .default = .ok o)
    (now : ℤ) :
    ∃ r, ScannedDbsFrom (fetchInternalDbById dbs dictid) (Host.dbinum - 1) (c.resume v) v [] r ∧
      scanCommand dbs now c (cursor :: options) =
        ⟨{ c with scanid := r.scanid }, .page (ll2string (wrap r.cursor.toNat))
          (scanFilter o (fetchInternalDbById dbs dictid r.last) now r.keys), r.visited⟩ := by
  refine ⟨_, scanDbs_spec (fun j hj => h.valid j (by omega)) o.count
    (Host.dbinum - 1 - c.resume v) (c.resume v) v [] (by omega) hv, ?_⟩
  simp only [Vire.scanCommand, headD_cons, hcursor, tail_cons, ho, hc]

theorem LogicalDb.mem_scanFilter (h : LogicalDb dbs dictid) {count : ℤ} {i j : ℕ}
    (hi : i < Host.dbinum) (hj : j < Host.dbinum) {e : Sds × V}
    (he : e ∈ (fetchInternalDbById dbs dictid j).dict.entries) {keys : List Sds} (hk : e.1 ∈ keys)
    {now : ℤ} (hnow : checkIfExpired (fetchInternalDbById dbs dictid j) e.1 now = false) :
    e.1 ∈ scanFilter ⟨count, none⟩ (fetchInternalDbById dbs dictid i) now keys := by
  have hlast : checkIfExpired (fetchInternalDbById dbs dictid i) e.1 now = false := by
    by_cases hij : i = j
    · rw [hij]
      exact hnow
    · exact h.checkIfExpired_ne hi hj hij (Dict.get_isSome_of_mem he) now
  simp [scanFilter, hk, hlast]

/-- How far a scan has to go at most. -/
def scanLeft (dbs : ℕ → Db V) (id : ℕ) (v : UInt64) : ℕ :=
  (Host.dbinum - id) * 2 ^ 64 + (2 ^ 64 - scanPos (dbs id).dict.scanBits v)

theorem ScannedDbsFrom.scanLeft_lt {id : ℕ} {keys : List Sds} {r : ScannedDbs}
    (hr : ScannedDbsFrom dbs (Host.dbinum - 1) id v keys r) (hid : id < Host.dbinum)
    (hs : (dbs id).dict.Sized) (hne : r.cursor ≠ 0) :
    scanLeft dbs r.last r.cursor < scanLeft dbs id v := by
  obtain ⟨-, -, hlt | ⟨heq, hpos⟩⟩ := hr.stands hne
  · have hp := scanPos_lt (hs.scanBits_le.trans (by norm_num)) v
    have hbits : 2 ^ (dbs id).dict.scanBits ≤ 2 ^ 63 :=
      Nat.pow_le_pow_right (by norm_num) hs.scanBits_le
    unfold scanLeft
    omega
  · rw [← heq] at hpos
    have hp := scanPos_lt (hs.scanBits_le.trans (by norm_num)) r.cursor
    have hbits : 2 ^ (dbs id).dict.scanBits ≤ 2 ^ 63 :=
      Nat.pow_le_pow_right (by norm_num) hs.scanBits_le
    rw [← heq]
    unfold scanLeft
    omega

theorem scanAll_finds (h : LogicalDb dbs dictid) (m : ℕ) :
    ∀ (calls : ℕ → ScanCall) (c : ScanClient) (cursor : Sds) (got : List Sds) (v : UInt64),
      (∀ i, ∃ count, parseScanOptions (calls i).options .default = .ok ⟨count, none⟩) →
      c.dictid = dictid → parseScanCursor cursor = .ok v → c.resume v < Host.dbinum →
      v.toNat < 2 ^ (fetchInternalDbById dbs dictid (c.resume v)).dict.scanBits →
      scanLeft (fetchInternalDbById dbs dictid) (c.resume v) v < m →
      ∃ n keys, scanAll dbs n calls c cursor got = some keys ∧ got ⊆ keys ∧
        ∀ j < Host.dbinum, ∀ e ∈ (fetchInternalDbById dbs dictid j).dict.entries,
          Ahead (fetchInternalDbById dbs dictid) (c.resume v) v j e →
          (∀ i < n, checkIfExpired (fetchInternalDbById dbs dictid j) e.1 (calls i).now = false) →
          e.1 ∈ keys := by
  induction m with
  | zero => intro _ _ _ _ _ _ _ _ _ _ hm; exact absurd hm (Nat.not_lt_zero _)
  | succ m ih =>
    intro calls c cursor got v hopt hc hcursor hid hv hm
    obtain ⟨count, ho⟩ := hopt 0
    obtain ⟨r, hr, hcall⟩ := h.scanCommand hc hcursor hid hv ho (calls 0).now
    have hlast : r.last < Host.dbinum := by
      have := hr.last
      omega
    have hall : ∀ n, scanAll dbs (n + 1) calls c cursor got =
        if ll2string (wrap r.cursor.toNat) = ll2string 0 then
          some (got ++ scanFilter ⟨count, none⟩ (fetchInternalDbById dbs dictid r.last)
            (calls 0).now r.keys)
        else scanAll dbs n (fun m => calls (m + 1)) { c with scanid := r.scanid }
          (ll2string (wrap r.cursor.toNat))
          (got ++ scanFilter ⟨count, none⟩ (fetchInternalDbById dbs dictid r.last)
            (calls 0).now r.keys) := by
      intro n
      rw [scanAll, hcall]
    by_cases h0 : r.cursor = 0
    · have hzero : ll2string (wrap r.cursor.toNat) = ll2string 0 := by simp [h0, wrap]
      refine ⟨1, _, by rw [hall, if_pos hzero], subset_append_left _ _, ?_⟩
      intro j hj e he ha hnow
      refine mem_append_right _ (h.mem_scanFilter hlast hj he ?_ (hnow 0 (by norm_num)))
      exact hr.finds j (by omega) e he ha fun hne => absurd h0 hne
    · obtain ⟨hscanid, hlt, -⟩ := hr.stands h0
      have hbits := (h.valid _ hlast).sized.scanBits_le
      have hsmall : r.cursor.toNat < 2 ^ 63 :=
        hlt.trans_le (Nat.pow_le_pow_right (by norm_num) hbits)
      have hread := parseScanCursor_decimal hsmall
      have hne : ll2string (wrap r.cursor.toNat) ≠ ll2string 0 := by
        intro heq
        rw [heq] at hread
        exact h0 (Except.ok.inj hread).symm
      have hresume : ({ c with scanid := r.scanid } : ScanClient).resume r.cursor = r.last := by
        simp [ScanClient.resume, h0, hscanid]
      have hleft := hr.scanLeft_lt hid (h.valid _ hid).sized h0
      obtain ⟨n, keys, hn, hgot, hkeys⟩ := ih (fun m => calls (m + 1)) { c with scanid := r.scanid }
        (ll2string (wrap r.cursor.toNat))
        (got ++ scanFilter ⟨count, none⟩ (fetchInternalDbById dbs dictid r.last)
          (calls 0).now r.keys)
        r.cursor (fun i => hopt (i + 1)) hc hread (by rwa [hresume]) (by rwa [hresume])
        (by rw [hresume]; omega)
      refine ⟨n + 1, keys, by rw [hall, if_neg hne, hn],
        Subset.trans (subset_append_left _ _) hgot, fun j hj e he ha hnow => ?_⟩
      by_cases hahead : Ahead (fetchInternalDbById dbs dictid) r.last r.cursor j e
      · rw [hresume] at hkeys
        exact hkeys j hj e he hahead fun i hi => hnow (i + 1) (by omega)
      · refine hgot (mem_append_right _ (h.mem_scanFilter hlast hj he ?_ (hnow 0 (by omega))))
        exact hr.finds j (by omega) e he ha fun _ => hahead

/-- A client that sends SCAN 0 and then the cursor it gets, with any COUNT, gets 0 after finitely
many calls, and by then has got every key that was not expired. -/
theorem scan_complete {c : ScanClient} (h : LogicalDb dbs c.dictid) (calls : ℕ → ScanCall)
    (hopt : ∀ i, ∃ count, parseScanOptions (calls i).options .default = .ok ⟨count, none⟩) :
    ∃ n keys, scanAll dbs n calls c (ll2string 0) [] = some keys ∧
      ∀ j < Host.dbinum, ∀ e ∈ (fetchInternalDbById dbs c.dictid j).dict.entries,
        (∀ i < n, checkIfExpired (fetchInternalDbById dbs c.dictid j) e.1 (calls i).now = false) →
        e.1 ∈ keys := by
  have hresume : c.resume 0 = 0 := rfl
  obtain ⟨n, keys, hn, -, hkeys⟩ := scanAll_finds h _ calls c (ll2string 0) [] 0 hopt rfl rfl
    (hresume ▸ Host.dbinum_pos) (Nat.two_pow_pos _) (Nat.lt_succ_self _)
  refine ⟨n, keys, hn, fun j hj e he hnow => hkeys j hj e he ?_ hnow⟩
  rcases Nat.eq_zero_or_pos j with rfl | hpos
  · exact .inr ⟨rfl, by simp [scanPos_zero]⟩
  · exact .inl hpos

end

def idleDb : Db Unit := ⟨⟨⟨[[([100], ())], [], [], []], 1⟩, .reset, none, 0⟩, .create⟩

def rehashedDb : Db Unit :=
  ⟨⟨⟨[[], [([97], ())], [], []], 1⟩, ⟨[[([104], ())], [], [], [], [], [], [], []], 1⟩, some 1, 0⟩,
    .create⟩

def halfRehashed (i : ℕ) : Db Unit := if i = 0 then idleDb else rehashedDb

@[reducible]
def twoDbs : Host := .plain 1 2 (by decide)

theorem idleDb_valid : @Db.Valid Unit twoDbs.toHashFn idleDb := by
  let _ := twoDbs
  refine ⟨⟨⟨Dictht.wf_of_lt (by decide) rfl, Dictht.wf_reset, by decide, fun _ => rfl, ?_, ?_⟩,
    Dict.wf_create, fun _ h => Bool.noConfusion h⟩,
    ⟨fun _ => ⟨2, by decide, rfl⟩, fun h => absurd rfl h⟩⟩
  · exact fun h => absurd h (by decide)
  · exact fun r i h => absurd h (by simp [idleDb])

theorem rehashedDb_valid : @Db.Valid Unit twoDbs.toHashFn rehashedDb := by
  let _ := twoDbs
  refine ⟨⟨⟨Dictht.wf_of_lt (by decide) rfl, Dictht.wf_of_lt (by decide) rfl, by decide, ?_,
    by decide, ?_⟩, Dict.wf_create, fun _ h => Bool.noConfusion h⟩,
    ⟨fun _ => ⟨2, by decide, rfl⟩, fun _ => ⟨3, by decide, rfl⟩⟩⟩
  · exact fun h => absurd h (by simp [rehashedDb])
  · rintro r i ⟨⟩ hi
    obtain rfl : i = 0 := by omega
    rfl

theorem halfRehashed_logicalDb : @LogicalDb Unit twoDbs halfRehashed 0 := by
  let _ := twoDbs
  have hfetch : fetchInternalDbById halfRehashed 0 = halfRehashed := by
    funext i
    simp [fetchInternalDbById]
  refine ⟨fun i _ => ?_, fun i hi j hj key hki hkj => ?_⟩
  · rw [hfetch, halfRehashed]
    split_ifs
    · exact idleDb_valid
    · exact rehashedDb_valid
  · have hdisj : ∀ key ∈ texts idleDb.dict.entries, key ∉ texts rehashedDb.dict.entries := by decide
    have hi2 : i < 2 := hi
    have hj2 : j < 2 := hj
    rw [Dict.get_isSome_iff, hfetch, halfRehashed] at hki hkj
    split_ifs at hki hkj with h h'
    · omega
    · exact absurd hkj (hdisj key hki)
    · exact absurd hki (hdisj key hkj)
    · omega

theorem scan_complete_halfRehashed :
    ∃ n keys, @scanAll Unit twoDbs halfRehashed n (fun _ => ⟨5, []⟩) ⟨0, some 1⟩ (ll2string 0) [] =
      some keys ∧ [100] ∈ keys ∧ [97] ∈ keys ∧ [104] ∈ keys := by
  let _ := twoDbs
  obtain ⟨n, keys, hn, hkeys⟩ := scan_complete (c := ⟨0, some 1⟩) halfRehashed_logicalDb
    (fun _ => ⟨5, []⟩) fun _ => ⟨10, rfl⟩
  refine ⟨n, keys, hn, hkeys 0 (by decide) ([100], ()) (by decide) fun _ _ => rfl,
    hkeys 1 (by decide) ([97], ()) (by decide) fun _ _ => rfl,
    hkeys 1 (by decide) ([104], ()) (by decide) fun _ _ => rfl⟩

theorem scanDbs_visited [HashFn] (dbs : ℕ → Db V) (count : ℤ) (n id : ℕ) (v : UInt64)
    (keys : List Sds) :
    (scanDbs dbs count n id v keys).visited.head?.map Prod.fst = some id := by
  cases n with
  | zero => rfl
  | succ n =>
    simp only [scanDbs]
    split_ifs <;> rfl

/-- Two connections with the same logical database get the same reply from the same buckets, if
and only if the request is refused, starts a scan, or finds both at the same internal database. -/
theorem scanCommand_eq_iff [Host] (dbs : ℕ → Db V) (now : ℤ) (dictid : ℕ) (id id' : Option ℕ)
    (argv : List Sds) :
    ((scanCommand dbs now ⟨dictid, id⟩ argv).reply =
        (scanCommand dbs now ⟨dictid, id'⟩ argv).reply ∧
      (scanCommand dbs now ⟨dictid, id⟩ argv).visited =
        (scanCommand dbs now ⟨dictid, id'⟩ argv).visited) ↔
    ∀ v o, parseScanCursor (argv.headD []) = .ok v → parseScanOptions argv.tail .default = .ok o →
      v ≠ 0 → id.getD 0 = id'.getD 0 := by
  rcases hv : parseScanCursor (argv.headD []) with e | v
  · simp only [scanCommand, hv]
    simp
  rcases ho : parseScanOptions argv.tail .default with e | o
  · simp only [scanCommand, hv, ho]
    simp
  simp only [scanCommand, hv, ho]
  constructor
  · rintro ⟨-, hvis⟩ v' o' hv' - hne
    cases hv'
    have hfst := congrArg (fun l => l.head?.map Prod.fst) hvis
    simpa [scanDbs_visited, ScanClient.resume, hne] using hfst
  · intro h
    have hresume : ScanClient.resume ⟨dictid, id⟩ v = ScanClient.resume ⟨dictid, id'⟩ v := by
      by_cases h0 : v = 0
      · simp [ScanClient.resume, h0]
      · simp [ScanClient.resume, h0, h v o rfl rfl h0]
    rw [hresume]
    exact ⟨rfl, rfl⟩

def scanCountOne (c : ScanClient) (cursor : UInt8) : ScanRun :=
  @scanCommand Unit twoDbs halfRehashed 0 c [[cursor], ascii "count".toList, ascii "1".toList]

/-- A client that follows its cursor comes to the second database and gets the cursor 2 once more.
Another connection that sends it gets what the first one has already got. -/
theorem scanCommand_reconnect :
    (scanCountOne ⟨0, none⟩ 48).client = ⟨0, some 0⟩ ∧
    (scanCountOne ⟨0, none⟩ 48).reply = .page [50] [[100]] ∧
    (scanCountOne ⟨0, some 0⟩ 50).client = ⟨0, some 1⟩ ∧
    (scanCountOne ⟨0, some 0⟩ 50).reply = .page [50] [[104]] ∧
    (scanCountOne ⟨0, some 1⟩ 50).reply = .page [51] [[97]] ∧
    (scanCountOne ⟨0, none⟩ 50).reply = .page [50] [[104]] := by
  decide +kernel

end Vire
